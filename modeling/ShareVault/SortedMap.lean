/-!
# Maps in key order

A finite map kept as the list of its entries in strictly ascending key order.  The list is
determined by the map, so two maps with the same look-ups are equal, and walking a map always
meets the keys in the same order.

* `SortedMap.get?`, `insert`, `erase`, `ofList`, `toList` — the map;
* `SortedMap.mapValues` — the same keys with other values;
* `get?_insert`, `get?_erase`, `get?_empty` — what each operation does to a look-up;
* `ext_get?` — equal look-ups, equal maps;
* `ofList_toList` — reading a map's own entries back gives the map;
* `SortedSet` — a map whose values carry nothing, with the same laws for membership.
-/

set_option linter.unusedSectionVars false

namespace ShareVault

/-- A finite map from `κ` to `α`, its entries in ascending key order. -/
structure SortedMap (κ α : Type) [Ord κ] where
  entries : List (κ × α)
  /-- The keys ascend, so none occurs twice. -/
  sorted : entries.Pairwise fun a b => compare a.1 b.1 = .lt

namespace SortedMap

variable {κ α : Type} [Ord κ]

/-! ### The entry lists -/

/-- The first value stored under a key. -/
def lookupEntry (k : κ) : List (κ × α) → Option α
  | [] => none
  | (k', v) :: rest => if compare k k' = .eq then some v else lookupEntry k rest

/-- An entry put in its place, or in the place of the one with the same key. -/
def insertEntry (k : κ) (v : α) : List (κ × α) → List (κ × α)
  | [] => [(k, v)]
  | (k', v') :: rest =>
    match compare k k' with
    | .lt => (k, v) :: (k', v') :: rest
    | .eq => (k, v) :: rest
    | .gt => (k', v') :: insertEntry k v rest

/-- The entries but for those of one key. -/
def eraseEntry (k : κ) (l : List (κ × α)) : List (κ × α) :=
  l.filter fun e => compare k e.1 ≠ .eq

section Laws

variable [Std.TransOrd κ] [Std.LawfulEqOrd κ]

theorem compare_eq_iff {a b : κ} : compare a b = .eq ↔ a = b :=
  ⟨Std.LawfulEqOrd.eq_of_compare, fun h => h ▸ Std.ReflOrd.compare_self⟩

theorem compare_gt_iff {a b : κ} : compare a b = .gt ↔ compare b a = .lt :=
  Std.OrientedCmp.gt_iff_lt

theorem compare_lt_trans {a b c : κ} (hab : compare a b = .lt) (hbc : compare b c = .lt) :
    compare a c = .lt :=
  Std.TransCmp.lt_trans hab hbc

theorem ne_of_compare_lt {a b : κ} (h : compare a b = .lt) : a ≠ b := by
  rintro rfl
  rw [Std.ReflOrd.compare_self] at h
  cases h

theorem mem_insertEntry {k : κ} {v : α} {l : List (κ × α)} {e : κ × α}
    (h : e ∈ insertEntry k v l) : e = (k, v) ∨ e ∈ l := by
  induction l with
  | nil => simpa [insertEntry] using h
  | cons head rest ih =>
    obtain ⟨k', v'⟩ := head
    unfold insertEntry at h
    split at h
    · simpa using h
    · rcases List.mem_cons.1 h with h | h
      · exact .inl h
      · exact .inr (List.mem_cons_of_mem _ h)
    · rcases List.mem_cons.1 h with h | h
      · exact .inr (h ▸ List.mem_cons_self)
      · exact (ih h).imp id (List.mem_cons_of_mem _)

theorem insertEntry_sorted (k : κ) (v : α) {l : List (κ × α)}
    (hl : l.Pairwise fun a b => compare a.1 b.1 = .lt) :
    (insertEntry k v l).Pairwise fun a b => compare a.1 b.1 = .lt := by
  induction l with
  | nil => simp [insertEntry]
  | cons head rest ih =>
    obtain ⟨k', v'⟩ := head
    have hrest := List.pairwise_cons.1 hl
    unfold insertEntry
    split
    next hlt =>
      refine List.pairwise_cons.2 ⟨fun e he => ?_, hl⟩
      rcases List.mem_cons.1 he with rfl | he
      · exact hlt
      · exact compare_lt_trans hlt (hrest.1 e he)
    next heq =>
      cases compare_eq_iff.1 heq
      exact List.pairwise_cons.2 ⟨hrest.1, hrest.2⟩
    next hgt =>
      refine List.pairwise_cons.2 ⟨fun e he => ?_, ih hrest.2⟩
      rcases mem_insertEntry he with rfl | he
      · exact compare_gt_iff.1 hgt
      · exact hrest.1 e he

end Laws

/-! ### Maps -/

instance [DecidableEq κ] [DecidableEq α] : DecidableEq (SortedMap κ α) := fun a b =>
  decidable_of_iff (a.entries = b.entries)
    ⟨fun h => by cases a; cases b; cases h; rfl, fun h => h ▸ rfl⟩

def empty : SortedMap κ α := ⟨[], .nil⟩

instance : EmptyCollection (SortedMap κ α) := ⟨empty⟩
instance : Inhabited (SortedMap κ α) := ⟨empty⟩

def toList (m : SortedMap κ α) : List (κ × α) := m.entries

/-- The keys in order. -/
def keys (m : SortedMap κ α) : List κ := m.entries.map (·.1)

/-- The values in the order of their keys. -/
def values (m : SortedMap κ α) : List α := m.entries.map (·.2)

/-- How many keys have a value. -/
def size (m : SortedMap κ α) : Nat := m.entries.length

/-- Whether no key has a value. -/
def isEmpty (m : SortedMap κ α) : Bool := m.entries.isEmpty

/-- The value of a key, if it has one. -/
def get? (m : SortedMap κ α) (k : κ) : Option α := lookupEntry k m.entries

/-- Whether a key has a value. -/
def contains (m : SortedMap κ α) (k : κ) : Bool := (m.get? k).isSome

/-- The map with another value for every key that has one. -/
def mapValues {β : Type} (f : α → β) (m : SortedMap κ α) : SortedMap κ β :=
  ⟨m.entries.map fun e => (e.1, f e.2), List.pairwise_map.2 m.sorted⟩

theorem get?_mapValues {β : Type} (f : α → β) (m : SortedMap κ α) (k : κ) :
    (m.mapValues f).get? k = (m.get? k).map f := by
  show lookupEntry k (m.entries.map _) = (lookupEntry k m.entries).map f
  induction m.entries with
  | nil => rfl
  | cons head rest ih =>
    simp only [List.map_cons, lookupEntry, ih]
    split <;> rfl

/-- The map without a value for this key. -/
def erase (m : SortedMap κ α) (k : κ) : SortedMap κ α :=
  ⟨eraseEntry k m.entries, m.sorted.filter _⟩

section Laws

variable [Std.TransOrd κ] [Std.LawfulEqOrd κ]

/-- The map with this value for this key, in place of any other. -/
def insert (m : SortedMap κ α) (k : κ) (v : α) : SortedMap κ α :=
  ⟨insertEntry k v m.entries, insertEntry_sorted k v m.sorted⟩

/-- The map of a list of entries; of several for one key the last counts. -/
def ofList (l : List (κ × α)) : SortedMap κ α :=
  l.foldl (fun m e => m.insert e.1 e.2) ∅

@[simp] theorem get?_empty (k : κ) : (∅ : SortedMap κ α).get? k = none := rfl

theorem lookupEntry_insertEntry (k : κ) (v : α) (k' : κ) {l : List (κ × α)}
    (hl : l.Pairwise fun a b => compare a.1 b.1 = .lt) :
    lookupEntry k' (insertEntry k v l) =
      if compare k' k = .eq then some v else lookupEntry k' l := by
  induction l with
  | nil => simp [insertEntry, lookupEntry]
  | cons head rest ih =>
    obtain ⟨k₁, v₁⟩ := head
    have hrest := List.pairwise_cons.1 hl
    unfold insertEntry
    split
    next hlt => rfl
    next heq =>
      cases compare_eq_iff.1 heq
      by_cases h : compare k' k = .eq <;> simp [lookupEntry, h]
    next hgt =>
      simp only [lookupEntry, ih hrest.2]
      by_cases h : compare k' k = .eq
      · cases compare_eq_iff.1 h
        simp [hgt]
      · simp [h]

theorem get?_insert [DecidableEq κ] (m : SortedMap κ α) (k k' : κ) (v : α) :
    (m.insert k v).get? k' = if k' = k then some v else m.get? k' := by
  refine (lookupEntry_insertEntry k v k' m.sorted).trans ?_
  simp only [compare_eq_iff]
  rfl

@[simp] theorem get?_insert_self (m : SortedMap κ α) (k : κ) (v : α) :
    (m.insert k v).get? k = some v := by
  refine (lookupEntry_insertEntry k v k m.sorted).trans ?_
  simp [Std.ReflOrd.compare_self]

theorem get?_insert_of_ne {m : SortedMap κ α} {k k' : κ} (h : k' ≠ k) (v : α) :
    (m.insert k v).get? k' = m.get? k' := by
  refine (lookupEntry_insertEntry k v k' m.sorted).trans ?_
  rw [if_neg (fun he => h (compare_eq_iff.1 he))]
  rfl

theorem lookupEntry_eraseEntry (k k' : κ) (l : List (κ × α)) :
    lookupEntry k' (eraseEntry k l) = if compare k' k = .eq then none else lookupEntry k' l := by
  induction l with
  | nil => simp [eraseEntry, lookupEntry]
  | cons head rest ih =>
    obtain ⟨k₁, v₁⟩ := head
    simp only [eraseEntry, compare_eq_iff] at ih
    by_cases h : k = k₁
    · subst h
      by_cases h' : k' = k <;>
        simp_all [eraseEntry, lookupEntry]
    · by_cases h' : k' = k
      · subst h'
        simp_all [eraseEntry, lookupEntry]
      · simp_all [eraseEntry, lookupEntry]

theorem get?_erase [DecidableEq κ] (m : SortedMap κ α) (k k' : κ) :
    (m.erase k).get? k' = if k' = k then none else m.get? k' := by
  refine (lookupEntry_eraseEntry k k' m.entries).trans ?_
  simp only [compare_eq_iff]
  rfl

@[simp] theorem get?_erase_self (m : SortedMap κ α) (k : κ) : (m.erase k).get? k = none := by
  refine (lookupEntry_eraseEntry k k m.entries).trans ?_
  simp [Std.ReflOrd.compare_self]

theorem get?_erase_of_ne {m : SortedMap κ α} {k k' : κ} (h : k' ≠ k) :
    (m.erase k).get? k' = m.get? k' := by
  refine (lookupEntry_eraseEntry k k' m.entries).trans ?_
  rw [if_neg (fun he => h (compare_eq_iff.1 he))]
  rfl

/-! ### A map is its look-ups -/

theorem lookupEntry_eq_none_of_lt {k : κ} {l : List (κ × α)}
    (h : ∀ e ∈ l, compare k e.1 = .lt) : lookupEntry k l = none := by
  induction l with
  | nil => rfl
  | cons head rest ih =>
    have hhead := h head List.mem_cons_self
    simp [lookupEntry, hhead, ih fun e he => h e (List.mem_cons_of_mem _ he)]

theorem lookupEntry_eq_some {k : κ} {v : α} {l : List (κ × α)}
    (hl : l.Pairwise fun a b => compare a.1 b.1 = .lt) :
    lookupEntry k l = some v ↔ (k, v) ∈ l := by
  induction l with
  | nil => simp [lookupEntry]
  | cons head rest ih =>
    obtain ⟨k₁, v₁⟩ := head
    have hrest := List.pairwise_cons.1 hl
    by_cases h : k = k₁
    · subst h
      have hnot : (k, v) ∉ rest := fun he => ne_of_compare_lt (hrest.1 _ he) rfl
      simp [lookupEntry, hnot, eq_comm]
    · simp [lookupEntry, h, ih hrest.2]

theorem mem_toList {m : SortedMap κ α} {k : κ} {v : α} :
    (k, v) ∈ m.toList ↔ m.get? k = some v :=
  (lookupEntry_eq_some m.sorted).symm

/-- The keys ascend. -/
theorem pairwise_keys (m : SortedMap κ α) : m.keys.Pairwise fun a b => compare a b = .lt :=
  List.pairwise_map.2 m.sorted

theorem mem_keys {m : SortedMap κ α} {k : κ} : k ∈ m.keys ↔ (m.get? k).isSome = true := by
  rw [Option.isSome_iff_exists]
  constructor
  · intro h
    obtain ⟨e, he, rfl⟩ := List.mem_map.1 h
    exact ⟨e.2, mem_toList.1 he⟩
  · rintro ⟨v, h⟩
    exact List.mem_map_of_mem (f := (·.1)) (mem_toList.2 h)

theorem entries_eq_of_lookupEntry {l₁ l₂ : List (κ × α)}
    (h₁ : l₁.Pairwise fun a b => compare a.1 b.1 = .lt)
    (h₂ : l₂.Pairwise fun a b => compare a.1 b.1 = .lt)
    (h : ∀ k, lookupEntry k l₁ = lookupEntry k l₂) : l₁ = l₂ := by
  induction l₁ generalizing l₂ with
  | nil =>
    cases l₂ with
    | nil => rfl
    | cons b rest₂ =>
      have := h b.1
      simp [lookupEntry, Std.ReflOrd.compare_self] at this
  | cons a rest₁ ih =>
    cases l₂ with
    | nil =>
      have := h a.1
      simp [lookupEntry, Std.ReflOrd.compare_self] at this
    | cons b rest₂ =>
      have ha := List.pairwise_cons.1 h₁
      have hb := List.pairwise_cons.1 h₂
      have hkey : a.1 = b.1 := by
        cases hc : compare a.1 b.1 with
        | lt =>
          have hnone := lookupEntry_eq_none_of_lt (k := a.1) (l := b :: rest₂) fun e he => by
            rcases List.mem_cons.1 he with rfl | he
            · exact hc
            · exact compare_lt_trans hc (hb.1 e he)
          have := h a.1
          rw [hnone] at this
          simp [lookupEntry, Std.ReflOrd.compare_self] at this
        | eq => exact compare_eq_iff.1 hc
        | gt =>
          have hc := compare_gt_iff.1 hc
          have hnone := lookupEntry_eq_none_of_lt (k := b.1) (l := a :: rest₁) fun e he => by
            rcases List.mem_cons.1 he with rfl | he
            · exact hc
            · exact compare_lt_trans hc (ha.1 e he)
          have := h b.1
          rw [hnone] at this
          simp [lookupEntry, Std.ReflOrd.compare_self] at this
      obtain ⟨ka, va⟩ := a
      obtain ⟨kb, vb⟩ := b
      cases hkey
      have hval := h ka
      simp only [lookupEntry, Std.ReflOrd.compare_self, if_true, Option.some.injEq] at hval
      cases hval
      congr 1
      refine ih ha.2 hb.2 fun k => ?_
      by_cases hk : k = ka
      · subst hk
        rw [lookupEntry_eq_none_of_lt ha.1, lookupEntry_eq_none_of_lt hb.1]
      · have := h k
        simpa [lookupEntry, compare_eq_iff, hk] using this

/-- Two maps that give every key the same value are equal. -/
theorem ext_get? {m₁ m₂ : SortedMap κ α} (h : ∀ k, m₁.get? k = m₂.get? k) : m₁ = m₂ := by
  obtain ⟨l₁, h₁⟩ := m₁
  obtain ⟨l₂, h₂⟩ := m₂
  cases entries_eq_of_lookupEntry h₁ h₂ h
  rfl

/-- A new value for a key makes two maps equal that differ in that key at most. -/
theorem insert_eq_insert [DecidableEq κ] {m₁ m₂ : SortedMap κ α} {k : κ}
    (h : ∀ k', k' ≠ k → m₁.get? k' = m₂.get? k') (v : α) : m₁.insert k v = m₂.insert k v := by
  refine ext_get? fun k' => ?_
  rw [get?_insert, get?_insert]
  split
  next => rfl
  next hk => exact h k' hk

theorem get?_ofList [DecidableEq κ] (l : List (κ × α)) (k : κ) :
    (ofList l).get? k = ((l.reverse.find? fun e => e.1 = k).map (·.2)) := by
  suffices h : ∀ (m : SortedMap κ α), (l.foldl (fun m e => m.insert e.1 e.2) m).get? k =
      ((l.reverse.find? fun e => e.1 = k).map (·.2)).or (m.get? k) by
    simpa [ofList] using h ∅
  induction l with
  | nil => simp
  | cons e rest ih =>
    intro m
    rw [List.foldl_cons, ih, get?_insert, List.reverse_cons, List.find?_append]
    by_cases h : e.1 = k
    · subst h
      cases List.find? (fun f => decide (f.1 = e.1)) rest.reverse <;> simp
    · have h' : ¬ k = e.1 := fun hk => h hk.symm
      cases List.find? (fun f => decide (f.1 = k)) rest.reverse <;> simp [h, h']

/-- Reading a map's own entries back gives the map. -/
@[simp] theorem ofList_toList (m : SortedMap κ α) : ofList m.toList = m := by
  classical
  refine ext_get? fun k => ?_
  rw [get?_ofList]
  cases hf : List.find? (fun e => decide (e.1 = k)) m.toList.reverse with
  | none =>
    rw [List.find?_eq_none] at hf
    cases hg : m.get? k with
    | none => rfl
    | some v =>
      have := hf (k, v) (List.mem_reverse.2 (mem_toList.2 hg))
      simp at this
  | some e =>
    have hk : e.1 = k := by simpa using List.find?_some hf
    have hmem := List.mem_reverse.1 (List.mem_of_find?_eq_some hf)
    subst hk
    simpa using (mem_toList.1 hmem).symm

end Laws

end SortedMap

/-! ### Sets in order -/

/-- A finite set, its members in ascending order. -/
structure SortedSet (κ : Type) [Ord κ] where
  /-- The members as the keys of a map. -/
  members : SortedMap κ Unit

namespace SortedSet

variable {κ : Type} [Ord κ]

instance [DecidableEq κ] : DecidableEq (SortedSet κ) := fun a b =>
  decidable_of_iff (a.members = b.members)
    ⟨fun h => by cases a; cases b; cases h; rfl, fun h => h ▸ rfl⟩

instance : EmptyCollection (SortedSet κ) := ⟨⟨∅⟩⟩
instance : Inhabited (SortedSet κ) := ⟨∅⟩

/-- The members in order. -/
def toList (s : SortedSet κ) : List κ := s.members.keys

/-- Whether the set has no member. -/
def isEmpty (s : SortedSet κ) : Bool := s.members.isEmpty

def contains (s : SortedSet κ) (k : κ) : Bool := s.members.contains k

def erase (s : SortedSet κ) (k : κ) : SortedSet κ := ⟨s.members.erase k⟩

theorem contains_of_isEmpty {s : SortedSet κ} (h : s.isEmpty = true) (k : κ) :
    s.contains k = false := by
  have hnil : s.members.entries = [] := List.isEmpty_iff.mp h
  unfold contains SortedMap.contains SortedMap.get?
  rw [hnil]
  rfl

variable [Std.TransOrd κ] [Std.LawfulEqOrd κ]

def insert (s : SortedSet κ) (k : κ) : SortedSet κ := ⟨s.members.insert k ()⟩

/-- The set of the members of a list. -/
def ofList (l : List κ) : SortedSet κ := ⟨SortedMap.ofList (l.map fun k => (k, ()))⟩

@[simp] theorem contains_empty (k : κ) : (∅ : SortedSet κ).contains k = false := rfl

theorem contains_insert [DecidableEq κ] (s : SortedSet κ) (k k' : κ) :
    (s.insert k).contains k' = (decide (k' = k) || s.contains k') := by
  simp only [contains, insert, SortedMap.contains, SortedMap.get?_insert]
  by_cases h : k' = k <;> simp [h]

theorem contains_erase [DecidableEq κ] (s : SortedSet κ) (k k' : κ) :
    (s.erase k).contains k' = (!decide (k' = k) && s.contains k') := by
  simp only [contains, erase, SortedMap.contains, SortedMap.get?_erase]
  by_cases h : k' = k <;> simp [h]

/-- Reading a set's own members back gives the set. -/
@[simp] theorem ofList_toList (s : SortedSet κ) : ofList s.toList = s := by
  obtain ⟨m⟩ := s
  have : (m.keys.map fun k => (k, ())) = m.toList := by
    simp [SortedMap.keys, SortedMap.toList, Function.comp_def]
  simp [ofList, toList, this]

end SortedSet

end ShareVault
