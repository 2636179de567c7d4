import ShareVault.Bytes
import ShareVault.Json.Codec

/-!
# Roles

Who may act.  An `AccessTable` maps accounts to the roles they hold.  Admins grant and revoke
roles, and the table refuses to lose its last admin.

* `AccessTable.hasRole`, `require` — what a caller may do;
* `AccessTable.grant`, `revoke` — changes to the table, by admins only;
* `AccessError` — the two ways a change is refused.
-/

namespace ShareVault

abbrev Account := String

/-- A role in the governance of a vault. -/
inductive Role where
  /-- May change everything, the roles included. -/
  | admin
  /-- May change the fees and treasuries of the strategy, and the deposit limits. -/
  | strategist
deriving DecidableEq, Repr

namespace Role

def name : Role → String
  | .admin => "Admin"
  | .strategist => "Strategist"

/-- Every role, in order. -/
def all : List Role := [.admin, .strategist]

/-- The place of a role in their order. -/
def index : Role → Nat
  | .admin => 0
  | .strategist => 1

instance : Ord Role := ⟨fun a b => compare a.index b.index⟩

instance : Std.TransOrd Role where
  eq_swap {a b} := by cases a <;> cases b <;> rfl
  isLE_trans {a b c} h₁ h₂ := by cases a <;> cases b <;> cases c <;> trivial

instance : Std.LawfulEqOrd Role where
  compare_self {a} := by cases a <;> rfl
  eq_of_compare {a b} h := by cases a <;> cases b <;> first | rfl | cases h

end Role

inductive AccessError where
  /-- The account holds none of the accepted roles. -/
  | unauthorized (account : Account) (accepted : List Role)
  /-- The only admin would lose that role. -/
  | lastAdmin
deriving DecidableEq

def AccessError.message : AccessError → String
  | .unauthorized account accepted =>
    s!"unauthorized: {account} lacks " ++ " or ".intercalate (accepted.map Role.name)
  | .lastAdmin => "cannot revoke the last admin"

/-- The roles of every account that has any. -/
structure AccessTable where
  roles : SortedMap Account (SortedSet Role)
deriving DecidableEq

namespace AccessTable

def empty : AccessTable := ⟨∅⟩

def rolesOf (t : AccessTable) (account : Account) : SortedSet Role :=
  (t.roles.get? account).getD ∅

/-- Whether an account holds a role. -/
def hasRole (t : AccessTable) (account : Account) (role : Role) : Bool :=
  (t.rolesOf account).contains role

/-- The table with one more role for an account. -/
def add (t : AccessTable) (account : Account) (role : Role) : AccessTable :=
  ⟨t.roles.insert account ((t.rolesOf account).insert role)⟩

/-- The table with one role less for an account, and without the account if it had no other. -/
def remove (t : AccessTable) (account : Account) (role : Role) : AccessTable :=
  match t.roles.get? account with
  | none => t
  | some set =>
    let left := set.erase role
    ⟨if left.isEmpty then t.roles.erase account else t.roles.insert account left⟩

def withAdmin (admin : Account) : AccessTable := empty.add admin .admin

/-- How many accounts are admins. -/
def adminCount (t : AccessTable) : Nat := t.roles.values.countP (·.contains .admin)

/-- Accepts an account that holds one of these roles. -/
def require (t : AccessTable) (account : Account) (accepted : List Role) :
    Except AccessError Unit :=
  if accepted.any (t.hasRole account) then .ok ()
  else .error (.unauthorized account accepted)

/-- Gives a role to an account, on behalf of an admin. -/
def grant (t : AccessTable) (caller account : Account) (role : Role) :
    Except AccessError AccessTable := do
  t.require caller [.admin]
  return t.add account role

/-- Takes a role from an account, on behalf of an admin. -/
def revoke (t : AccessTable) (caller account : Account) (role : Role) :
    Except AccessError AccessTable := do
  t.require caller [.admin]
  if role = .admin ∧ t.hasRole account .admin ∧ t.adminCount = 1 then
    throw .lastAdmin
  return t.remove account role

end AccessTable

/-! ### Written forms -/

instance : JsonCodec Role where
  toJson r := .text r.name
  ofJson? v := do
    let (name, content) ← v.variant?
    if Json.noContent content then Role.all.find? (·.name = name) else none

instance : ByteCodec Role where
  encode r := ByteCodec.encodeCase r.index
  decode := do
    let n ← ByteCodec.decodeCase
    Role.all.find? (·.index = n)
  fits _ := true

instance : JsonCodec AccessTable where
  toJson t := .object [("roles", toJson t.roles)]
  ofJson? v := do
    let [roles] ← v.slots? ["roles"] | none
    return ⟨← roles.required?⟩

instance : ByteCodec AccessTable where
  encode t := ByteCodec.encode t.roles
  decode := return ⟨← ByteCodec.decode⟩
  fits t := ByteCodec.fits t.roles

end ShareVault
