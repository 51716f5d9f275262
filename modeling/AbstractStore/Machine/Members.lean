import AbstractStore.Machine.Requests
import AbstractStore.Object

/-! Looking up the members of classes.
The search goes through the superclasses depth first and from left to right, and visits an address
once, so cycles of inheritance do no harm. -/

namespace AbstractStore.Machine

variable {P A : Type} [Address A]

inductive Finding (A : Type) where
  | found (a : A)
  | absent
  /-- The search was led to an address that neither the heap nor the handler declares. -/
  | beyond (a : A)
  deriving DecidableEq

/-- What a look at the classes of a cell comes to. -/
inductive Glance (A : Type) where
  /-- The member, as the first class that has it defines it. -/
  | defined (a : A)
  /-- No class defines the member; these are the superclasses of all of them, as they are named. -/
  | undefined (superclasses : List A)
  deriving DecidableEq

/-- Look at objects one after the other, with the superclasses that those before them name. What is
no class is passed over. -/
def glance (member : Name) (above : List A) : List (Object A) → Glance A
  | [] => .undefined above
  | .classDef _ superclasses members :: later =>
      match members.get? member with
      | some a => .defined a
      | none => glance member (above ++ superclasses) later
  | _ :: later => glance member above later

/-- The addresses that a search from `a` may be led to. -/
def horizon (m : Machine P A (Object A)) (a : A) : LiveSet A :=
  (m.heap.embedded ∪ (m.recovery.address.map (·.reach)).getD ∅).insert a

/-- The search, with the addresses that have been visited and those to be visited next. -/
def search (member : Name) (horizon visited : LiveSet A) (stack : List A)
    (m : Machine P A (Object A)) : Except (Error A) (Finding A) × Machine P A (Object A) :=
  match stack with
  | [] => (.ok .absent, m)
  | a :: stack =>
      if seen : a ∈ visited then search member horizon visited stack m
      else if inside : a ∈ horizon then
        match Id.run (deref a m) with
        | (.error e, m) => (.error e, m)
        | (.ok c, m) => match glance member [] c.toList with
          | .defined found => (.ok (.found found), m)
          | .undefined above =>
              have : (horizon \ visited.insert a).size < (horizon \ visited).size :=
                AscSet.size_lt_of_subset (a := a) (by simp; grind) (by simp [seen, inside])
                  (by simp)
              search member horizon (visited.insert a) (above ++ stack) m
      else (.ok (.beyond a), m)
termination_by ((horizon \ visited).size, stack.length)

/-- The address of a member of the class at `a`, or of the nearest superclass that defines it. -/
def lookupMember (a : A) (member : Name) : Eval P A (Object A) (Finding A) :=
  ExceptT.mk fun m => search member (horizon m a) ∅ [a] m

end AbstractStore.Machine
