import Oberon.Tree.Tree

/-!
# Conditions on parts

Which parts of a construct are present together, and how many there are of one role for those of
another, is said by a condition (`Condition`).  A condition looks at the parts from outside: at
their roles, and at whether a part is a token, a place without one or a construct
(`Tree.glance`).

Whether a condition holds of parts is defined on all of them at once (`Condition.Holds`), but can be
found by reading one part after the other: `Condition.after` is what remains to hold of the others
after the first one, and `Condition.atEnd` is the answer when there are no more
(`Condition.holds_iff`).  What remains is one of a few conditions, which makes a condition an
automaton that a grammar can be checked against.
-/

namespace Oberon

/-- What a part is, apart from its role: a token, a place without one, or a construct that has parts
or not. -/
inductive Shape where
  | token (symbol : Symbol)
  | gap
  | construct (filled : Bool)
  deriving DecidableEq

/-- A part from outside. -/
abbrev Glance := Role × Shape

namespace Tree

def shape : Tree → Shape
  | leaf _ lexeme => .token lexeme.symbol
  | missing _ => .gap
  | node _ _ _ children => .construct (!children.isEmpty)

/-- The role and the shape of a part. -/
def glance (tree : Tree) : Glance := (tree.role, tree.shape)

theorem shape_withRole
    (tree : Tree)
    (role : Role) :
    (tree.withRole role).shape = tree.shape := by
  cases tree <;> rfl

theorem glance_withRole
    (tree : Tree)
    (role : Role) :
    (tree.withRole role).glance = (role, tree.shape) := by
  rw [glance, role_withRole, shape_withRole]

@[simp] theorem map_fst_glance
    (parts : List Tree) :
    (parts.map glance).map (·.1) = parts.map (·.role) := by
  rw [List.map_map]
  rfl

end Tree

/-- What can be asked of the parts of a construct: whether there is one in a role (`has`), also of a
shape (`shows`), whether there are more parts in one role than in another one by a difference
(`excess`), whether there are none (`ended`), and whether the only part is a construct (`alone`). -/
inductive Condition where
  | known (answer : Bool)
  | has (role : Role)
  | shows (role : Role) (shape : Shape)
  | excess (more less : Role) (difference : Int)
  | ended
  | alone
  | neg (condition : Condition)
  | both (first second : Condition)
  | either (first second : Condition)
  deriving DecidableEq

namespace Condition

/-- Whether parts meet a condition. -/
def Holds : Condition → List Glance → Prop
  | known answer, _ => answer = true
  | has role, parts => role ∈ parts.map (·.1)
  | shows role shape, parts => (role, shape) ∈ parts
  | excess more less difference, parts =>
    ((parts.map (·.1)).count more : Int) = (parts.map (·.1)).count less + difference
  | ended, parts => parts = []
  | alone, parts => ∃ role filled, parts = [(role, .construct filled)]
  | neg condition, parts => ¬ condition.Holds parts
  | both first second, parts => first.Holds parts ∧ second.Holds parts
  | either first second, parts => first.Holds parts ∨ second.Holds parts

/-- What the parts after a given one have to meet. -/
def after (part : Glance) : Condition → Condition
  | known answer => known answer
  | has role => if part.1 = role then known true else has role
  | shows role shape => if part = (role, shape) then known true else shows role shape
  | excess more less difference =>
    excess more less
      (difference + (if part.1 = less then 1 else 0) - (if part.1 = more then 1 else 0))
  | ended => known false
  | alone => match part.2 with
    | .construct _ => ended
    | _ => known false
  | neg condition => neg (condition.after part)
  | both first second => both (first.after part) (second.after part)
  | either first second => either (first.after part) (second.after part)

/-- Whether a condition is met when there are no more parts. -/
def atEnd : Condition → Bool
  | known answer => answer
  | has _ => false
  | shows _ _ => false
  | excess _ _ difference => difference == 0
  | ended => true
  | alone => false
  | neg condition => !condition.atEnd
  | both first second => first.atEnd && second.atEnd
  | either first second => first.atEnd || second.atEnd

attribute [local simp] Holds after atEnd

theorem holds_nil
    (condition : Condition) :
    condition.Holds [] ↔ condition.atEnd = true := by
  induction condition with
  | known => simp
  | has => simp
  | shows => simp
  | excess _ _ difference =>
    simp only [Holds, atEnd, List.map_nil, List.count_nil, beq_iff_eq]
    omega
  | ended => simp
  | alone => simp
  | neg _ ih => simp [ih]
  | both _ _ left right => simp [left, right]
  | either _ _ left right => simp [left, right]

theorem holds_cons
    (condition : Condition)
    (part : Glance)
    (parts : List Glance) :
    condition.Holds (part :: parts) ↔ (condition.after part).Holds parts := by
  induction condition with
  | known => rfl
  | has role =>
    rw [after]
    split
    · rename_i same
      simp [same]
    · rename_i other
      simp [Ne.symm other]
  | shows role shape =>
    rw [after]
    split
    · rename_i same
      simp [same]
    · rename_i other
      simp [Ne.symm other]
  | excess more less difference =>
    simp only [Holds, after, List.map_cons, List.count_cons, beq_iff_eq]
    split <;> split <;> omega
  | ended => simp
  | alone =>
    obtain ⟨role, shape⟩ := part
    cases shape <;> simp
  | neg _ ih => simp [ih]
  | both _ _ left right => simp [left, right]
  | either _ _ left right => simp [left, right]

/-- Reading the parts one by one decides whether a condition holds. -/
theorem holds_iff
    (condition : Condition)
    (parts : List Glance) :
    condition.Holds parts ↔
      (parts.foldl (fun rest part => rest.after part) condition).atEnd = true := by
  induction parts generalizing condition with
  | nil => exact condition.holds_nil
  | cons part parts ih => rw [holds_cons, List.foldl_cons, ih]

instance (condition : Condition) (parts : List Glance) : Decidable (condition.Holds parts) :=
  decidable_of_iff _ (condition.holds_iff parts).symm

def implies (first second : Condition) : Condition := either (neg first) second

/-- Both conditions are met, or neither is. -/
def same (first second : Condition) : Condition :=
  both (implies first second) (implies second first)

/-- One of two conditions is met, and the other one is not. -/
def exactlyOne (first second : Condition) : Condition := same first (neg second)

/-- A condition is met for every one of some roles. -/
def each (roles : List Role) (condition : Role → Condition) : Condition :=
  roles.foldr (fun role => both (condition role)) (known true)

/-- There is no part in any of some roles. -/
def lacks (roles : List Role) : Condition := each roles fun role => neg (has role)

/-- Parts in some roles are present together or absent together. -/
def together (roles : List Role) : Condition := either (each roles has) (lacks roles)

/-- There are as many parts in one role as in another one. -/
def parallel (role other : Role) : Condition := excess role other 0

/-- One separator less than there are items, and none if there are no items. -/
def separated (items separators : Role) : Condition :=
  either (excess items separators 1) (both (neg (has items)) (excess items separators 0))

variable
  {first second : Condition}
  {parts : List Glance}

@[simp] theorem holds_implies :
    (implies first second).Holds parts ↔ (first.Holds parts → second.Holds parts) := by
  rw [implies, Holds, Holds, Decidable.imp_iff_not_or]

@[simp] theorem holds_same :
    (same first second).Holds parts ↔ (first.Holds parts ↔ second.Holds parts) := by
  rw [same, Holds, holds_implies, holds_implies]
  exact iff_def.symm

@[simp] theorem holds_exactlyOne :
    (exactlyOne first second).Holds parts ↔ (first.Holds parts ↔ ¬ second.Holds parts) := by
  rw [exactlyOne, holds_same, Holds]

@[simp] theorem holds_each
    {roles : List Role}
    {condition : Role → Condition} :
    (each roles condition).Holds parts ↔ ∀ role ∈ roles, (condition role).Holds parts := by
  induction roles with
  | nil => simp [each]
  | cons role roles ih =>
    rw [List.forall_mem_cons, ← ih]
    rfl

@[simp] theorem holds_lacks
    {roles : List Role} :
    (lacks roles).Holds parts ↔ ∀ role ∈ roles, role ∉ parts.map (·.1) :=
  holds_each

@[simp] theorem holds_together
    {roles : List Role} :
    (together roles).Holds parts ↔
      (∀ role ∈ roles, role ∈ parts.map (·.1)) ∨ (∀ role ∈ roles, role ∉ parts.map (·.1)) :=
  or_congr holds_each holds_each

/-- Of two parts that go together neither is without the other. -/
theorem holds_pair
    {role other : Role} :
    (together [role, other]).Holds parts ↔
      (role ∈ parts.map (·.1) ↔ other ∈ parts.map (·.1)) := by
  simp only [holds_together, List.forall_mem_cons, List.not_mem_nil, false_implies, implies_true,
    and_true]
  exact Decidable.iff_iff_and_or_not_and_not.symm

@[simp] theorem holds_parallel
    {role other : Role} :
    (parallel role other).Holds parts ↔
      (parts.map (·.1)).count role = (parts.map (·.1)).count other := by
  rw [parallel, Holds]
  omega

@[simp] theorem holds_separated
    {items separators : Role} :
    (separated items separators).Holds parts ↔
      (parts.map (·.1)).count separators = (parts.map (·.1)).count items - 1 := by
  have present : items ∈ parts.map (·.1) ↔ 0 < (parts.map (·.1)).count items :=
    List.count_pos_iff.symm
  simp only [separated, Holds, present]
  omega

/-- Two items with a comma between them are separated, and without it they are not. -/
example :
    (separated .item .separator).Holds
      [(.item, .construct true), (.separator, .token (.mark .comma)), (.item, .construct true)] ∧
    ¬ (separated .item .separator).Holds [(.item, .construct true), (.item, .construct true)] := by
  decide

end Condition

end Oberon
