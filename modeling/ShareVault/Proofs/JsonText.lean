import ShareVault.Proofs.JsonToken

/-!
# Reading trees

A text is read in two steps that do not know of each other: the tokens are found one by one, since a
number is followed by the end of the text or of a part of it; and the reader, which keeps the open
containers on a stack, is at the end of a value where the tokens of the value end.

* `Json.induct` — induction over trees, through the lists in them;
* `isChain_tokens` — the tokens of a tree are apart;
* `Reads`, `reads` — the tokens of a tree are read as the tree, under any stack;
* `parse?_of_writtenAs` — every text of a tree is read as the tree, and so `parse?_print`.
-/

namespace ShareVault.Json

/-- What holds of a tree if it holds of all parts, holds of all trees. -/
theorem induct {P : Json → Prop} (null : P .null) (bool : ∀ b, P (.bool b)) (nat : ∀ n, P (.nat n))
    (numeral : ∀ text, P (.numeral text)) (str : ∀ s, P (.str s))
    (arr : ∀ items, (∀ v ∈ items, P v) → P (.arr items))
    (obj : ∀ members, (∀ m ∈ members, P m.2) → P (.obj members)) : ∀ v, P v
  | .null => null
  | .bool b => bool b
  | .nat n => nat n
  | .numeral text => numeral text
  | .str s => str s
  | .arr items => arr items fun v _ => induct null bool nat numeral str arr obj v
  | .obj members => obj members fun (_, v) _ => induct null bool nat numeral str arr obj v
termination_by v => v
decreasing_by
  · next hv =>
    have hlt := List.sizeOf_lt_of_mem hv
    simp only [Json.arr.sizeOf_spec]
    omega
  · next hm =>
    have hlt := List.sizeOf_lt_of_mem hm
    simp only [Json.obj.sizeOf_spec, Prod.mk.sizeOf_spec] at hlt ⊢
    omega

/-! ### Tokens -/

/-- A value stands apart from the end of its part. -/
theorem isChain_append_end {ts us : List Token} {u : Token} (hu : u.EndsPart)
    (hts : ts.IsChain Token.Apart) (hus : (u :: us).IsChain Token.Apart) :
    (ts ++ u :: us).IsChain Token.Apart := by
  refine List.isChain_append.mpr ⟨hts, hus, fun t _ u' hu' => ?_⟩
  cases hu'
  exact Token.apart_of_endsPart hu t

theorem isChain_cons_of_apart {t : Token} {ts : List Token} (ht : ∀ u, t.Apart u)
    (hts : ts.IsChain Token.Apart) : (t :: ts).IsChain Token.Apart :=
  List.isChain_cons.mpr ⟨fun u _ => ht u, hts⟩

theorem isChain_itemTokens {items : List Json}
    (h : ∀ v ∈ items, v.tokens.IsChain Token.Apart) : (itemTokens items).IsChain Token.Apart := by
  induction items with
  | nil => exact List.isChain_singleton _
  | cons v tail ih =>
    have hv := h v List.mem_cons_self
    have htail := ih fun w hw => h w (List.mem_cons_of_mem _ hw)
    cases tail with
    | nil =>
      rw [itemTokens]
      exact isChain_append_end (by simp [Token.EndsPart]) hv htail
    | cons w tail =>
      rw [itemTokens]
      exact isChain_append_end (by simp [Token.EndsPart]) hv
        (isChain_cons_of_apart (fun _ => trivial) htail)

theorem isChain_memberTokens {members : List (Literal × Json)}
    (h : ∀ m ∈ members, m.2.tokens.IsChain Token.Apart) :
    (memberTokens members).IsChain Token.Apart := by
  induction members with
  | nil => exact List.isChain_singleton _
  | cons m tail ih =>
    obtain ⟨k, v⟩ := m
    have hv := h (k, v) List.mem_cons_self
    have htail := ih fun m hm => h m (List.mem_cons_of_mem _ hm)
    cases tail with
    | nil =>
      rw [memberTokens]
      exact isChain_cons_of_apart (fun _ => trivial) (isChain_cons_of_apart (fun _ => trivial)
        (isChain_append_end (by simp [Token.EndsPart]) hv htail))
    | cons m tail =>
      rw [memberTokens]
      exact isChain_cons_of_apart (fun _ => trivial) (isChain_cons_of_apart (fun _ => trivial)
        (isChain_append_end (by simp [Token.EndsPart]) hv
          (isChain_cons_of_apart (fun _ => trivial) htail)))

/-- In a tree every number is followed by the end of its part, or by nothing. -/
theorem isChain_tokens (v : Json) : v.tokens.IsChain Token.Apart := by
  induction v using induct with
  | arr items ih => exact isChain_cons_of_apart (fun _ => trivial) (isChain_itemTokens ih)
  | obj members ih => exact isChain_cons_of_apart (fun _ => trivial) (isChain_memberTokens ih)
  | _ => exact List.isChain_singleton _

/-! ### The reader -/

/-- Where a value is expected, the tokens of the tree are read as the tree. -/
def Reads (v : Json) : Prop :=
  ∀ (stack : List Frame) (ts : List Token),
    Reader.run ⟨.value, stack⟩ (v.tokens ++ ts) = Reader.run ⟨.more v, stack⟩ ts

variable {stack : List Frame} {ts : List Token}

/-- The tokens of a value do not start with the end of an array. -/
theorem tokens_head (v : Json) : ∃ t us, v.tokens = t :: us ∧ t ≠ .closeBracket := by
  cases v <;> exact ⟨_, _, rfl, by simp⟩

/-- The first item of an array is read as any value. -/
theorem run_firstItem (v : Json) :
    Reader.run ⟨.firstItem, stack⟩ (v.tokens ++ ts) = Reader.run ⟨.value, stack⟩ (v.tokens ++ ts) := by
  obtain ⟨t, us, htokens, hne⟩ := tokens_head v
  have hstep : Reader.step ⟨.firstItem, stack⟩ t = Reader.step ⟨.value, stack⟩ t := by
    unfold Reader.step
    split <;> simp_all
  rw [htokens, List.cons_append, Reader.run, hstep, Reader.run]

/-- What is left of an array is read after the items that have been read. -/
theorem run_itemTokens {v : Json} {items : List Json} (h : ∀ w ∈ v :: items, Reads w)
    (done : List Json) :
    Reader.run ⟨.value, .items done :: stack⟩ (itemTokens (v :: items) ++ ts) =
      Reader.run ⟨.more (.arr (done.reverse ++ v :: items)), stack⟩ ts := by
  have hv := h v List.mem_cons_self
  induction items generalizing v done with
  | nil =>
    rw [itemTokens, List.append_assoc, hv]
    show Reader.run ⟨.more (.arr (v :: done).reverse), stack⟩ ts = _
    rw [List.reverse_cons]
  | cons w tail ih =>
    have htail := fun u hu => h u (List.mem_cons_of_mem _ hu)
    rw [itemTokens, List.append_assoc, hv]
    show Reader.run ⟨.value, .items (v :: done) :: stack⟩ (itemTokens (w :: tail) ++ ts) = _
    rw [ih htail (v :: done) (htail w List.mem_cons_self), List.reverse_cons, List.append_assoc]
    rfl

/-- What is left of an object is read after the members that have been read. -/
theorem run_memberTokens {m : Literal × Json} {members : List (Literal × Json)}
    (h : ∀ m' ∈ m :: members, Reads m'.2) (done : List (Literal × Json)) :
    Reader.run ⟨.key, .members done :: stack⟩ (memberTokens (m :: members) ++ ts) =
      Reader.run ⟨.more (.obj (done.reverse ++ m :: members)), stack⟩ ts := by
  obtain ⟨k, v⟩ := m
  have hv : Reads v := h (k, v) List.mem_cons_self
  induction members generalizing k v done with
  | nil =>
    rw [memberTokens]
    show Reader.run ⟨.value, .member done k :: stack⟩ (v.tokens ++ [.closeBrace] ++ ts) = _
    rw [List.append_assoc, hv]
    show Reader.run ⟨.more (.obj ((k, v) :: done).reverse), stack⟩ ts = _
    rw [List.reverse_cons]
  | cons m tail ih =>
    have htail := fun m' hm' => h m' (List.mem_cons_of_mem _ hm')
    rw [memberTokens]
    show Reader.run ⟨.value, .member done k :: stack⟩
      (v.tokens ++ .comma :: memberTokens (m :: tail) ++ ts) = _
    rw [List.append_assoc, hv]
    show Reader.run ⟨.key, .members ((k, v) :: done) :: stack⟩ (memberTokens (m :: tail) ++ ts) = _
    rw [ih ((k, v) :: done) m.1 m.2 htail (htail m List.mem_cons_self), List.reverse_cons,
      List.append_assoc]
    rfl

/-- Every tree is read from its tokens. -/
theorem reads (v : Json) : Reads v := by
  induction v using induct with
  | null => exact fun stack ts => rfl
  | bool b => exact fun stack ts => rfl
  | nat n => exact fun stack ts => rfl
  | numeral text => exact fun stack ts => rfl
  | str s => exact fun stack ts => rfl
  | arr items ih =>
    intro stack ts
    show Reader.run ⟨.firstItem, .items [] :: stack⟩ (itemTokens items ++ ts) = _
    cases items with
    | nil => rfl
    | cons v tail =>
      have hfirst : Reader.run ⟨.firstItem, .items [] :: stack⟩ (itemTokens (v :: tail) ++ ts) =
          Reader.run ⟨.value, .items [] :: stack⟩ (itemTokens (v :: tail) ++ ts) := by
        cases tail <;> simp only [itemTokens, List.append_assoc] <;> exact run_firstItem v
      rw [hfirst, run_itemTokens ih]
      rfl
  | obj members ih =>
    intro stack ts
    show Reader.run ⟨.firstKey, .members [] :: stack⟩ (memberTokens members ++ ts) = _
    cases members with
    | nil => rfl
    | cons m tail =>
      have hfirst : Reader.run ⟨.firstKey, .members [] :: stack⟩ (memberTokens (m :: tail) ++ ts) =
          Reader.run ⟨.key, .members [] :: stack⟩ (memberTokens (m :: tail) ++ ts) := by
        cases tail <;> rfl
      rw [hfirst, run_memberTokens ih]
      rfl

/-! ### Texts -/

/-- Every text of a tree is read as the tree. -/
theorem parse?_of_writtenAs {v : Json} {text : String} (h : v.WrittenAs text) :
    parse? text = some v := by
  have hlex := lex_of_laid h (isChain_tokens v)
  have hread := reads v [] []
  rw [List.append_nil] at hread
  unfold parse? ofTokens?
  rw [hlex, Option.bind_some, show Reader.run .start v.tokens = some ⟨.more v, []⟩ from hread]
  rfl

/-- The compact text of a tree is read as the tree. -/
theorem parse?_print {v : Json} (h : v.Plain) : parse? v.print = some v :=
  parse?_of_writtenAs h.writtenAs_print

end ShareVault.Json
