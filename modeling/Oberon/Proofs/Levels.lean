import Oberon.Proofs.Consumption
import Oberon.Proofs.Counting
import Oberon.Proofs.Roles

/-!
# Levels of nesting in a tree

`Tree.nesting` is the greatest number of factors, statements, types and sequences of declarations
that are nested in a tree, each within the next.  Which parts of a node these are is seen from their
roles and kinds (`Kind.opens`): an operand is a factor of its own except as the primary of a
designator or as the designator of a statement, and so on.

Some constructs of a production have no level of their own.  `Production.surface` computes their
roles and kinds, and `Production.levelled` checks that none of them is one that opens a level in the
node above it.  Every other construct uses up a level, so that a tree cannot have more of them than
were left when it was parsed (`Production.Reads.covered`).

All that is to be said of the limit of nesting comes together in `Rule.parse_limited`.
-/

namespace Oberon

namespace Kind

/-- True of the operands of expressions. -/
def isOperand : Kind → Bool
  | signed | designation | literal | atom | inquiry | parenthesis | allocation | set
  | arrayValue => true
  | _ => false

/-- Whether a part is a level of nesting, from its role, its kind and the kind of the construct it
belongs to.  The name of an external symbol, which is told by the word `EXTERN`, is none. -/
def opens (outer : Kind) (external : Bool) (role : Role) (inner : Kind) : Bool :=
  match role with
  | .declarations => true
  | .type => outer != .portDeclaration
  | .primary => false
  | .designator => false
  | .item => outer == .statements || inner.isOperand
  | .value => inner.isOperand && !external
  | _ => inner.isOperand

theorem opens_external
    {outer inner : Kind}
    {role : Role}
    (h : outer.opens false role inner = false)
    (external : Bool) :
    outer.opens external role inner = false := by
  cases external with
  | false => exact h
  | true => cases role <;> simp_all [opens]

end Kind

namespace Tree

/-- Whether an external symbol is among some parts. -/
def external (parts : List Tree) : Bool := parts.any (·.symbol? == some (.word .EXTERN))

/-- Whether a part is a level of nesting in a construct of a kind. -/
def isLevel (outer : Kind) (external : Bool) (tree : Tree) : Bool :=
  tree.kind?.any (outer.opens external tree.role)

mutual

/-- How many levels are nested in a tree. -/
def nesting : Tree → Nat
  | leaf _ _ => 0
  | missing _ => 0
  | node _ kind _ children => nestingOf kind (external children) children

/-- How many levels are nested in one of several parts of a construct of a kind, counting the part
itself. -/
def nestingOf (outer : Kind) (external : Bool) : List Tree → Nat
  | [] => 0
  | tree :: rest =>
    max (tree.nesting + (tree.isLevel outer external).toNat) (nestingOf outer external rest)

end

variable {budget : Nat}

theorem nestingOf_le_iff
    {outer : Kind}
    {external : Bool}
    {trees : List Tree} :
    nestingOf outer external trees ≤ budget ↔
      ∀ tree ∈ trees, tree.nesting + (tree.isLevel outer external).toNat ≤ budget := by
  induction trees with
  | nil => simp [nestingOf]
  | cons tree rest ih => rw [nestingOf, Nat.max_le, ih, List.forall_mem_cons]

@[simp] theorem nesting_withRole
    (role : Role)
    (tree : Tree) :
    (tree.withRole role).nesting = tree.nesting := by
  cases tree <;> simp [withRole, nesting]

@[simp] theorem kind?_withRole
    (role : Role)
    (tree : Tree) :
    (tree.withRole role).kind? = tree.kind? := by
  cases tree <;> rfl

theorem external_append_left
    {front : List Tree}
    (h : external front = true)
    (back : List Tree) :
    external (front ++ back) = true := by
  rw [external, List.any_append, Bool.or_eq_true]
  exact .inl h

theorem external_append_right
    {back : List Tree}
    (front : List Tree)
    (h : external back = true) :
    external (front ++ back) = true := by
  rw [external, List.any_append, Bool.or_eq_true]
  exact .inr h

end Tree

/-- A construct without a level of its own. -/
structure Surface where
  role : Role
  kind : Kind
  external : Bool
  deriving DecidableEq, Repr

namespace Tree

/-- A part has fewer levels than there are, or it has at most as many and is one of the constructs
without a level of their own. -/
def Covered (budget : Nat) (surface : List Surface) (external : Bool) (tree : Tree) : Prop :=
  tree.nesting < budget ∨
    tree.nesting ≤ budget ∧ ∀ kind, tree.kind? = some kind →
      ∃ entry ∈ surface, entry.role = tree.role ∧ entry.kind = kind ∧
        (entry.external = true → external = true)

namespace Covered

variable
  {budget : Nat}
  {surface more : List Surface}
  {external : Bool}
  {tree : Tree}

theorem nesting_le
    (h : tree.Covered budget surface external) :
    tree.nesting ≤ budget := by
  rcases h with fewer | ⟨bound, -⟩
  · exact Nat.le_of_lt fewer
  · exact bound

theorem of_kind?_eq_none
    (bare : tree.kind? = none)
    (flat : tree.nesting = 0) :
    tree.Covered budget surface external := by
  refine .inr ⟨flat ▸ Nat.zero_le _, ?_⟩
  intro kind found
  exact nomatch bare.symm.trans found

/-- More constructs without a level of their own may be known, and more parts around. -/
theorem mono
    {known : Bool}
    (h : tree.Covered budget surface external)
    (grows : ∀ entry ∈ surface, ∃ entry' ∈ more, entry'.role = entry.role ∧
      entry'.kind = entry.kind ∧
        (entry'.external = true → (entry.external = true → external = true) → known = true)) :
    tree.Covered budget more known := by
  refine h.imp_right fun ⟨bound, among⟩ => ⟨bound, fun kind found => ?_⟩
  obtain ⟨entry, member, role, same, told⟩ := among kind found
  obtain ⟨entry', member', role', same', told'⟩ := grows entry member
  exact ⟨entry', member', role'.trans role, same'.trans same, fun flag => told' flag told⟩

theorem of_subset
    {known : Bool}
    (h : tree.Covered budget surface external)
    (contained : surface ⊆ more)
    (spreads : external = true → known = true) :
    tree.Covered budget more known :=
  h.mono fun entry member => ⟨entry, contained member, rfl, rfl, fun flag told => spreads (told flag)⟩

theorem of_nesting_le
    {other : Tree}
    (h : tree.Covered budget surface external)
    (role : other.role = tree.role)
    (kind : other.kind? = tree.kind?)
    (le : other.nesting ≤ tree.nesting) :
    other.Covered budget surface external := by
  rw [Covered, role, kind]
  exact h.imp (Nat.lt_of_le_of_lt le) (And.imp_left (Nat.le_trans le))

end Covered

end Tree

namespace Assembly

/-- The kinds of the nodes that an assembly builds. -/
def nodes : Assembly → List Kind
  | node kind => [kind]
  | unlessSingle kind => [kind]
  | chain kind => [kind]
  | byRole _ present absent => [present, absent]
  | indexList => [.expressionList, .indexList]
  | allocation => [.allocation, .literal]

/-- True if a part can take the place of the construct. -/
def collapses : Assembly → Bool
  | unlessSingle _ | chain _ | indexList => true
  | _ => false

/-- True if the parts can become parts of parts, in other roles. -/
def regroups : Assembly → Bool
  | chain _ | indexList => true
  | _ => false

/-- What an assembly makes of constructs without a level of their own. -/
def surface (assembly : Assembly) (parts : List Surface) : List Surface :=
  assembly.nodes.map (⟨.root, ·, false⟩) ++
    if assembly.collapses then parts.map fun entry => ⟨.root, entry.kind, false⟩ else []

/-- Checks that none of the parts without a level of their own opens one. -/
def levelled (assembly : Assembly) (parts : List Surface) : Bool :=
  if assembly.regroups then
    assembly.nodes.all (!·.isOperand) && parts.all fun entry =>
      !entry.kind.isOperand && assembly.nodes.all (!·.opens false entry.role entry.kind)
  else
    parts.all fun entry => assembly.nodes.all (!·.opens entry.external entry.role entry.kind)

variable
  {assembly : Assembly}
  {parts : List Surface}

theorem mem_surface_of_mem_nodes
    {kind : Kind}
    (member : kind ∈ assembly.nodes) :
    ⟨.root, kind, false⟩ ∈ assembly.surface parts :=
  List.mem_append_left _ (List.mem_map_of_mem member)

/-- A part can take the place of the construct. -/
theorem mem_surface_of_mem
    (collapses : assembly.collapses = true)
    {entry : Surface}
    (member : entry ∈ parts) :
    ⟨.root, entry.kind, false⟩ ∈ assembly.surface parts := by
  rw [surface, if_pos collapses]
  exact List.mem_append_right _ (List.mem_map_of_mem member)

/-- If parts are regrouped, then neither what takes the place of the construct nor any of them is an
operand, and none of them opens a level. -/
theorem plain_of_levelled
    (regroups : assembly.regroups = true)
    (levelled : assembly.levelled parts = true) :
    (∀ entry ∈ assembly.surface parts, entry.kind.isOperand = false) ∧
      ∀ entry ∈ parts, entry.kind.isOperand = false ∧
        ∀ kind ∈ assembly.nodes, kind.opens false entry.role entry.kind = false := by
  rw [Assembly.levelled, if_pos regroups] at levelled
  simp only [Bool.and_eq_true, List.all_eq_true, Bool.not_eq_true'] at levelled
  obtain ⟨nodes, parted⟩ := levelled
  refine ⟨?_, parted⟩
  intro entry member
  rcases List.mem_append.mp member with built | taken
  · obtain ⟨kind, among, rfl⟩ := List.mem_map.mp built
    exact nodes kind among
  · split at taken
    · obtain ⟨entry, among, rfl⟩ := List.mem_map.mp taken
      exact (parted entry among).1
    · cases taken

end Assembly

namespace Production

/-- True of the word `EXTERN`. -/
def isExternal : Production .parts → Bool
  | .token _ symbols _ => symbols == [.word .EXTERN]
  | _ => false

/-- The constructs of a production that have no level of their own. -/
def surface : {yield : Yield} → Production yield → List Surface
  | _, .empty => []
  | _, .token _ _ _ => []
  | _, .gap _ => []
  | _, .fail _ => []
  | _, .seq first second =>
    first.surface ++
      second.surface.map fun entry => { entry with external := entry.external || first.isExternal }
  | _, .branch _ first second => first.surface ++ second.surface
  | _, .many _ item => item.surface
  | _, .tail _ _ _ _ exit item => exit.surface ++ item.surface
  | _, .part role construct => construct.surface.map fun entry => ⟨role, entry.kind, false⟩
  | _, .assemble assembly parts => assembly.surface parts.surface
  | _, .deeper _ => []
  | _, .reclaim body closing => (body.surface ++ closing.surface).map ({ · with external := false })

/-- Checks that no construct without a level of its own opens one. -/
def levelled : {yield : Yield} → Production yield → Bool
  | _, .empty => true
  | _, .token _ _ _ => true
  | _, .gap _ => true
  | _, .fail _ => true
  | _, .seq first second => first.levelled && second.levelled
  | _, .branch _ first second => first.levelled && second.levelled
  | _, .many _ item => item.levelled
  | _, .tail _ _ _ _ exit item => exit.levelled && item.levelled
  | _, .part _ construct => construct.levelled
  | _, .assemble assembly parts => parts.levelled && assembly.levelled parts.surface
  | _, .deeper _ => true
  | _, .reclaim body closing => body.levelled && closing.levelled

end Production

theorem Level.levelled_production (level : Level) : level.production.levelled = true := by
  cases level <;> decide +kernel

namespace Rule

/-- Whether the tree of a rule is a level of nesting as a whole. -/
def opens (rule : Rule) (kind : Kind) : Bool :=
  match rule with
  | factor | statement | typeSpec | declarationSequence => true
  | term | simpleExpression | rangeExpression | expression | expressionList
  | indexList => kind.isOperand
  | _ => false

theorem levelled_production (rule : Rule) : rule.production.levelled = true := by
  have every : ∀ rule ∈ all, rule.production.levelled = true := by decide +kernel
  exact every rule rule.mem_all

/-- A tree that is a level as a whole has one of its own. -/
theorem not_opens_of_mem_surface
    (rule : Rule)
    (entry : Surface)
    (member : entry ∈ rule.production.surface) :
    rule.opens entry.kind = false := by
  have every : ∀ rule ∈ all, ∀ entry ∈ rule.production.surface, rule.opens entry.kind = false := by
    decide +kernel
  exact every rule rule.mem_all entry member

end Rule

namespace Tree

variable
  {budget : Nat}
  {surface : List Surface}
  {known : Bool}

/-- A part that is covered stays within the levels, unless it is one that opens a level. -/
theorem Covered.level_le
    {tree : Tree}
    {outer : Kind}
    {external : Bool}
    (h : tree.Covered budget surface known)
    (closed : ∀ entry ∈ surface, (entry.external = true → known = true) →
      outer.opens external entry.role entry.kind = false) :
    tree.nesting + (tree.isLevel outer external).toNat ≤ budget := by
  rcases h with fewer | ⟨bound, among⟩
  · have atMost := (tree.isLevel outer external).toNat_le
    omega
  · suffices none : tree.isLevel outer external = false by
      rw [none]
      exact bound
    cases found : tree.kind? with
    | none => rw [isLevel, found, Option.any_none]
    | some kind =>
      obtain ⟨entry, member, role, same, told⟩ := among kind found
      rw [isLevel, found, Option.any_some, ← role, ← same]
      exact closed entry member told

/-- A part that is covered by constructs that are not operands stays within the levels in every role
that only operands can open a level in. -/
theorem Covered.operand_le
    {tree : Tree}
    {outer : Kind}
    {role : Role}
    (h : tree.Covered budget surface known)
    (plain : ∀ entry ∈ surface, entry.kind.isOperand = false)
    (operand : ∀ external inner, outer.opens external role inner = inner.isOperand)
    (external : Bool) :
    (tree.withRole role).nesting + ((tree.withRole role).isLevel outer external).toNat ≤ budget := by
  rw [nesting_withRole, isLevel, kind?_withRole, role_withRole]
  rcases h with fewer | ⟨bound, among⟩
  · have atMost := (tree.kind?.any (outer.opens external role)).toNat_le
    omega
  · suffices none : tree.kind?.any (outer.opens external role) = false by
      rw [none]
      exact bound
    cases found : tree.kind? with
    | none => rfl
    | some kind =>
      obtain ⟨entry, member, -, same, -⟩ := among kind found
      rw [Option.any_some, operand, ← same]
      exact plain entry member

/-- A node whose parts stay within the levels does so itself. -/
theorem covered_node
    {out : List Surface}
    {ahead : Bool}
    {kind : Kind}
    {span : Span}
    {parts : List Tree}
    (self : ⟨.root, kind, false⟩ ∈ out)
    (within : ∀ part ∈ parts,
      part.nesting + (part.isLevel kind (external parts)).toNat ≤ budget) :
    (node .root kind span parts).Covered budget out ahead := by
  refine .inr ⟨nestingOf_le_iff.mpr within, ?_⟩
  rintro _ ⟨⟩
  exact ⟨_, self, rfl, rfl, nofun⟩

/-- A part that is covered is covered in every role. -/
theorem Covered.withRole
    {tree : Tree}
    (h : tree.Covered budget surface known)
    (role : Role)
    {ahead : Bool} :
    (tree.withRole role).Covered budget (surface.map fun entry => ⟨role, entry.kind, false⟩) ahead := by
  rw [Covered, nesting_withRole, kind?_withRole, role_withRole]
  refine h.imp_right fun ⟨bound, among⟩ => ⟨bound, fun kind found => ?_⟩
  obtain ⟨entry, member, -, rfl, -⟩ := among kind found
  exact ⟨_, List.mem_map_of_mem member, rfl, rfl, nofun⟩

/-- What takes the place of a construct is covered there. -/
theorem Covered.root
    {out : List Surface}
    {tree : Tree}
    (h : tree.Covered budget surface known)
    (kept : ∀ entry ∈ surface, ⟨.root, entry.kind, false⟩ ∈ out)
    (ahead : Bool) :
    (tree.withRole .root).Covered budget out ahead := by
  refine Covered.of_subset (h.withRole .root) ?_ (id : ahead = true → ahead = true)
  intro entry member
  obtain ⟨entry, among, rfl⟩ := List.mem_map.mp member
  exact kept entry among

theorem covered_unlessSingle
    {out : List Surface}
    {kind : Kind}
    {span : Span}
    {parts : List Tree}
    (self : ⟨.root, kind, false⟩ ∈ out)
    (kept : ∀ entry ∈ surface, ⟨.root, entry.kind, false⟩ ∈ out)
    (each : ∀ part ∈ parts, part.Covered budget surface known)
    (within : ∀ part ∈ parts,
      part.nesting + (part.isLevel kind (external parts)).toNat ≤ budget)
    (ahead : Bool) :
    (unlessSingle kind span parts).Covered budget out ahead := by
  fun_cases unlessSingle kind span parts with
  | case1 _ inside innerSpan children => exact (each _ List.mem_cons_self).root kept ahead
  | case2 => exact covered_node self within

/-- Operands that are joined to the left open no level that they have not opened before. -/
theorem covered_chain
    {out : List Surface}
    {ahead : Bool}
    {kind : Kind}
    {start : Nat}
    {left : Tree}
    {parts : List Tree}
    (self : ⟨.root, kind, false⟩ ∈ out)
    (plain : ∀ entry ∈ out, entry.kind.isOperand = false)
    (plain' : ∀ entry ∈ surface, entry.kind.isOperand = false)
    (closed : ∀ entry ∈ surface, kind.opens false entry.role entry.kind = false)
    (first : left.Covered budget out ahead)
    (each : ∀ part ∈ parts, part.Covered budget surface known) :
    (chain kind start left parts).Covered budget out ahead := by
  have lhs : ∀ {tree : Tree} {entries : List Surface} {seen : Bool} (external : Bool),
      tree.Covered budget entries seen → (∀ entry ∈ entries, entry.kind.isOperand = false) →
        (tree.withRole .lhs).nesting + ((tree.withRole .lhs).isLevel kind external).toNat ≤ budget :=
    fun external covered plain => covered.operand_le plain (fun _ _ => rfl) external
  have own : ∀ part ∈ parts, ∀ external,
      part.nesting + (part.isLevel kind external).toNat ≤ budget :=
    fun part member external => (each part member).level_le
      fun entry among _ => Kind.opens_external (closed entry among) external
  fun_induction chain kind start left parts with
  | case1 => exact first
  | case2 left last =>
    refine covered_node self ?_
    simp only [List.forall_mem_cons, List.not_mem_nil, false_imp_iff, implies_true, and_true]
    exact ⟨lhs _ first plain, own last List.mem_cons_self _⟩
  | case3 left operator right rest ih =>
    simp only [List.forall_mem_cons] at each own
    refine ih ?_ each.2.2 own.2.2
    refine covered_node self ?_
    simp only [List.forall_mem_cons, List.not_mem_nil, false_imp_iff, implies_true, and_true]
    exact ⟨lhs _ first plain, own.1 _, each.2.1.operand_le plain' (fun _ _ => rfl) _⟩

/-- The items before a `?` are no level as a list. -/
theorem covered_indexList
    {out : List Surface}
    {ahead : Bool}
    {span : Span}
    {parts : List Tree}
    (list : ⟨.root, .expressionList, false⟩ ∈ out)
    (self : ⟨.root, .indexList, false⟩ ∈ out)
    (kept : ∀ entry ∈ surface, ⟨.root, entry.kind, false⟩ ∈ out)
    (plain : ∀ entry ∈ out, entry.kind.isOperand = false)
    (closed : ∀ entry ∈ surface, Kind.expressionList.opens false entry.role entry.kind = false ∧
      Kind.indexList.opens false entry.role entry.kind = false)
    (each : ∀ part ∈ parts, part.Covered budget surface known) :
    (indexList span parts).Covered budget out ahead := by
  have inList : ∀ part ∈ parts, ∀ external,
      part.nesting + (part.isLevel .expressionList external).toNat ≤ budget :=
    fun part member external => (each part member).level_le
      fun entry among _ => Kind.opens_external (closed entry among).1 external
  have inIndexes : ∀ part ∈ parts, ∀ external,
      part.nesting + (part.isLevel .indexList external).toNat ≤ budget :=
    fun part member external => (each part member).level_le
      fun entry among _ => Kind.opens_external (closed entry among).2 external
  fun_cases indexList span parts with
  | case1 nowhere =>
    exact covered_unlessSingle list kept each (fun part member => inList part member _) ahead
  | case2 question found before none =>
    exact covered_node self fun part member => inIndexes part member _
  | case3 question found before several left =>
    have first : ∀ part ∈ parts.takeWhile before, part.Covered budget surface known :=
      fun part member => each part (List.takeWhile_subset _ member)
    have items : left.Covered budget out ahead := by
      refine covered_unlessSingle list kept first (fun part member => ?_) ahead
      exact inList part (List.takeWhile_subset _ member) _
    refine covered_node self ?_
    intro part member
    rcases List.mem_cons.mp member with rfl | later
    · exact items.operand_le plain (fun _ _ => rfl) _
    · exact inIndexes part ((List.dropWhile_suffix _).subset later) _

theorem covered_allocation
    {out : List Surface}
    {ahead : Bool}
    {span : Span}
    {parts : List Tree}
    (name : ⟨.root, .literal, false⟩ ∈ out)
    (self : ⟨.root, .allocation, false⟩ ∈ out)
    (within : ∀ part ∈ parts,
      part.nesting + (part.isLevel .allocation (external parts)).toNat ≤ budget) :
    (allocation span parts).Covered budget out ahead := by
  fun_cases allocation span parts with
  | case1 _ lexeme =>
    refine covered_node name ?_
    intro part member
    obtain rfl := List.mem_singleton.mp member
    exact Nat.zero_le _
  | case2 => exact covered_node self within

/-- If nothing is regrouped, then no part without a level of its own is one for a node that is
built. -/
theorem level_le_of_levelled
    {assembly : Assembly}
    {parts : List Tree}
    (direct : assembly.regroups = false)
    (levelled : assembly.levelled surface = true)
    (each : ∀ part ∈ parts, part.Covered budget surface (external parts)) :
    ∀ kind ∈ assembly.nodes, ∀ part ∈ parts,
      part.nesting + (part.isLevel kind (external parts)).toNat ≤ budget := by
  rw [Assembly.levelled, if_neg (by simp [direct])] at levelled
  simp only [List.all_eq_true, Bool.not_eq_true'] at levelled
  intro kind among part member
  refine (each part member).level_le fun entry of told => ?_
  have shut := levelled entry of kind among
  cases flag : entry.external with
  | false =>
    rw [flag] at shut
    exact Kind.opens_external shut _
  | true =>
    rw [told flag]
    rwa [flag] at shut

/-- The construct that is assembled from parts is covered, if none of them that has no level of its
own opens one. -/
theorem covered_assemble
    {assembly : Assembly}
    {span : Span}
    {parts : List Tree}
    (levelled : assembly.levelled surface = true)
    (each : ∀ part ∈ parts, part.Covered budget surface (external parts))
    (ahead : Bool) :
    (assemble assembly span parts).Covered budget (assembly.surface surface) ahead := by
  have self : ∀ kind ∈ assembly.nodes, ⟨.root, kind, false⟩ ∈ assembly.surface surface :=
    fun kind => Assembly.mem_surface_of_mem_nodes
  cases assembly with
  | node kind =>
    have within := level_le_of_levelled rfl levelled each
    exact covered_node (self kind List.mem_cons_self) (within kind List.mem_cons_self)
  | unlessSingle kind =>
    have within := level_le_of_levelled rfl levelled each
    exact covered_unlessSingle (self kind List.mem_cons_self)
      (fun _ => Assembly.mem_surface_of_mem rfl) each (within kind List.mem_cons_self) ahead
  | chain kind =>
    have own := self kind List.mem_cons_self
    obtain ⟨plain, parted⟩ := Assembly.plain_of_levelled rfl levelled
    cases parts with
    | nil => exact covered_node own (by simp)
    | cons first rest =>
      rw [List.forall_mem_cons] at each
      exact covered_chain own plain (fun entry member => (parted entry member).1)
        (fun entry member => (parted entry member).2 kind List.mem_cons_self)
        (each.1.root (fun _ => Assembly.mem_surface_of_mem rfl) ahead) each.2
  | byRole role present absent =>
    have within := level_le_of_levelled rfl levelled each
    have either : (if parts.any (·.role == role) then present else absent) ∈
        (Assembly.byRole role present absent).nodes := by
      split
      · exact List.mem_cons_self
      · exact List.mem_cons_of_mem _ List.mem_cons_self
    exact covered_node (self _ either) (within _ either)
  | indexList =>
    obtain ⟨plain, parted⟩ := Assembly.plain_of_levelled rfl levelled
    refine covered_indexList (self _ List.mem_cons_self)
      (self _ (List.mem_cons_of_mem _ List.mem_cons_self)) (fun _ => Assembly.mem_surface_of_mem rfl)
      plain (fun entry member => ?_) each
    have shut := (parted entry member).2
    exact ⟨shut _ List.mem_cons_self, shut _ (List.mem_cons_of_mem _ List.mem_cons_self)⟩
  | allocation =>
    have within := level_le_of_levelled rfl levelled each
    exact covered_allocation (self _ (List.mem_cons_of_mem _ List.mem_cons_self))
      (self _ List.mem_cons_self) (within _ List.mem_cons_self)

/-- A declaration with an object type that holds nothing has no more levels than one with an empty
object type. -/
theorem nesting_reclaimed_le
    {role : Role}
    {span span' : Span}
    {names colon type object ending : Tree}
    (released : type.releaseEnd? = some (object, ending)) :
    (node role .variableDeclaration span [names, colon, object]).nesting ≤
      (node role .variableDeclaration span' [names, colon, type]).nesting := by
  obtain ⟨_, _, _, _, _, full, bare, -⟩ := releaseEnd?_eq_some released
  have flat : object.nesting = 0 := by
    rw [bare]
    rfl
  have known : external [names, colon, object] = external [names, colon, type] := by
    rw [full, bare]
    rfl
  have level : ∀ external, object.isLevel .variableDeclaration external =
      type.isLevel .variableDeclaration external := by
    rw [full, bare]
    exact fun _ => rfl
  rw [nesting, nesting, known]
  simp only [nestingOf, level, flat]
  omega

theorem covered_reclaimEnd?
    {parts reclaimed : List Tree}
    {ahead : Bool}
    (h : reclaimEnd? parts = some reclaimed)
    (each : ∀ part ∈ parts, part.Covered budget surface known) :
    ∀ part ∈ reclaimed, part.Covered budget (surface.map ({ · with external := false })) ahead := by
  have kept : ∀ {part : Tree}, part.Covered budget surface known →
      part.Covered budget (surface.map ({ · with external := false })) ahead :=
    fun covered => covered.mono fun entry member =>
      ⟨_, List.mem_map_of_mem member, rfl, rfl, nofun⟩
  obtain ⟨before, role, span, names, colon, type, object, ending, rfl, released, rfl⟩ :=
    reclaimEnd?_eq_some h
  have field := kept (each _ (List.mem_append_right _ List.mem_cons_self))
  obtain ⟨_, _, _, _, last, -, -, leaf⟩ := releaseEnd?_eq_some released
  simp only [List.forall_mem_append, List.forall_mem_cons, List.not_mem_nil, false_imp_iff,
    implies_true, and_true]
  refine ⟨fun part front => kept (each part (List.mem_append_left _ front)),
    field.of_nesting_le rfl rfl (nesting_reclaimed_le released), .of_kind?_eq_none rfl rfl, ?_⟩
  rw [leaf]
  exact .of_kind?_eq_none rfl rfl

end Tree

namespace Production

theorem Reads.external_of_isExternal
    {budget : Nat}
    {production : Production .parts}
    {cursor after : Cursor}
    {output : List Tree}
    (h : Reads budget production cursor output after)
    (external : production.isExternal = true) :
    Tree.external output = true := by
  cases h with
  | @token _ _ _ _ lexeme _ _ _ fits =>
    rw [beq_iff_eq.mp external, List.mem_singleton] at fits
    simp [Tree.external, Tree.symbol?, fits]
  | _ => cases external

/-- Every part of a production stays within the levels that are left. -/
theorem Reads.covered
    {budget : Nat}
    {yield : Yield}
    {production : Production yield}
    {cursor after : Cursor}
    {output : yield.Output}
    (h : Reads budget production cursor output after)
    (levelled : production.levelled = true) :
    ∀ tree ∈ Yield.trees output,
      tree.Covered budget production.surface (Tree.external (Yield.trees output)) := by
  induction h with
  | empty => nofun
  | token =>
    intro tree member
    obtain rfl := List.mem_singleton.mp member
    exact .of_kind?_eq_none rfl rfl
  | gap =>
    intro tree member
    obtain rfl := List.mem_singleton.mp member
    exact .of_kind?_eq_none rfl rfl
  | seq head others left right =>
    obtain ⟨one, other⟩ := Bool.and_eq_true_iff.mp levelled
    intro tree member
    rcases List.mem_append.mp member with before | after
    · refine (left one tree before).of_subset (List.subset_append_left _ _) fun told => ?_
      exact Tree.external_append_left told _
    · refine (right other tree after).mono fun entry among =>
        ⟨_, List.mem_append_right _ (List.mem_map_of_mem among), rfl, rfl, fun flag told => ?_⟩
      rcases Bool.or_eq_true_iff.mp flag with old | new
      · exact Tree.external_append_right _ (told old)
      · exact Tree.external_append_left (head.external_of_isExternal new) _
  | first _ _ ih =>
    obtain ⟨one, -⟩ := Bool.and_eq_true_iff.mp levelled
    exact fun tree member => (ih one tree member).of_subset (List.subset_append_left _ _) id
  | second _ _ ih =>
    obtain ⟨-, other⟩ := Bool.and_eq_true_iff.mp levelled
    exact fun tree member => (ih other tree member).of_subset (List.subset_append_right _ _) id
  | manyStop => nofun
  | manyStep _ _ _ _ head others =>
    intro tree member
    rcases List.mem_append.mp member with before | after
    · refine (head levelled tree before).of_subset (List.Subset.refl _) fun told => ?_
      exact Tree.external_append_left told _
    · refine (others levelled tree after).of_subset (List.Subset.refl _) fun told => ?_
      exact Tree.external_append_right _ told
  | manyStall _ _ _ ih => exact ih levelled
  | tailStop => nofun
  | tailStep _ _ _ head others =>
    obtain ⟨-, item⟩ := Bool.and_eq_true_iff.mp levelled
    intro tree member
    rcases List.mem_cons.mp member with rfl | member
    · exact .of_kind?_eq_none rfl rfl
    · rcases List.mem_append.mp member with before | after
      · refine (head item tree before).of_subset (List.subset_append_right _ _) fun told => ?_
        exact Tree.external_append_left (Tree.external_append_right [_] told) _
      · refine (others levelled tree after).of_subset (List.Subset.refl _) fun told => ?_
        exact Tree.external_append_right _ told
  | tailExit _ _ ih =>
    obtain ⟨exit, -⟩ := Bool.and_eq_true_iff.mp levelled
    intro tree member
    rcases List.mem_cons.mp member with rfl | after
    · exact .of_kind?_eq_none rfl rfl
    · refine (ih exit tree after).of_subset (List.subset_append_left _ _) fun told => ?_
      exact Tree.external_append_right [_] told
  | @part _ role construct _ _ tree inner ih =>
    intro part member
    obtain rfl := List.mem_singleton.mp member
    exact (ih levelled tree List.mem_cons_self).withRole role
  | assemble inner ih =>
    obtain ⟨below, checked⟩ := Bool.and_eq_true_iff.mp levelled
    intro tree member
    obtain rfl := List.mem_singleton.mp member
    exact Tree.covered_assemble checked (ih below) _
  | @deeper _ level _ _ _ _ ih =>
    intro tree member
    obtain rfl := List.mem_singleton.mp member
    exact .inl (Nat.lt_succ_of_le (ih level.levelled_production _ List.mem_cons_self).nesting_le)
  | reclaimed _ _ handed ih =>
    obtain ⟨body, -⟩ := Bool.and_eq_true_iff.mp levelled
    intro tree member
    refine (Tree.covered_reclaimEnd? handed (ih body) tree member).of_subset ?_ id
    rw [surface, List.map_append]
    exact List.subset_append_left _ _
  | unclaimed _ _ _ inner last =>
    obtain ⟨body, closing⟩ := Bool.and_eq_true_iff.mp levelled
    intro tree member
    rcases List.mem_append.mp member with before | after
    · exact (inner body tree before).mono fun entry among =>
        ⟨_, List.mem_map_of_mem (List.mem_append_left _ among), rfl, rfl, nofun⟩
    · exact (last closing tree after).mono fun entry among =>
        ⟨_, List.mem_map_of_mem (List.mem_append_right _ among), rfl, rfl, nofun⟩

end Production

/-- A tree has no more levels than were left when it was parsed, and one less if it is a level as a
whole. -/
theorem Rule.nesting_le
    {rule : Rule}
    {budget : Nat}
    {cursor after : Cursor}
    {tree : Tree}
    (parsed : rule.parseWithin budget cursor = .ok tree after) :
    tree.nesting + (tree.kind?.any rule.opens).toNat ≤ budget := by
  have derived := Production.run_eq_ok_iff.mp parsed
  rcases derived.covered rule.levelled_production tree List.mem_cons_self with fewer | ⟨bound, among⟩
  · have atMost := (tree.kind?.any rule.opens).toNat_le
    omega
  · suffices none : tree.kind?.any rule.opens = false by
      rw [none]
      exact bound
    cases found : tree.kind? with
    | none => rfl
    | some kind =>
      obtain ⟨entry, member, -, rfl, -⟩ := among kind found
      exact rule.not_opens_of_mem_surface entry member

/-- Giving up at one depth is giving up at every greater one. -/
theorem Parser.Filters.tooDeep
    {α : Type}
    {result full : EStateM.Result Violation Cursor α}
    (h : Filters result full)
    (deep : TooDeep full) :
    TooDeep result := by
  rcases h with same | given
  · exact same ▸ deep
  · exact given

/-- The limit of nesting is only a filter, and it never leaks.  At every depth a rule that counts
the open levels ends, whether it succeeds or fails, at the depth at which it began, and gives the
result for as many levels as are left there.  At a greater depth the result and the place are the
same, or the rule gives up because of the nesting, and it gives up if it does so at the smaller
depth.  If it succeeds, then the levels nested in the tree are no more than were left. -/
theorem Rule.parse_limited
    (rule : Rule)
    (cursor : Cursor)
    (depth depth' calls : Nat)
    (deeper : depth ≤ depth')
    (enough : maxNesting ≤ calls) :
    ∃ result result',
      rule.parseWithin (maxNesting - depth) cursor = result ∧
        rule.parseWithin (maxNesting - depth') cursor = result' ∧
        rule.count calls ⟨cursor, depth⟩ = Counter.atDepth depth result ∧
        rule.count calls ⟨cursor, depth'⟩ = Counter.atDepth depth' result' ∧
        Parser.Filters result' result ∧
        (Parser.TooDeep result → Parser.TooDeep result') ∧
        ∀ tree after, result = .ok tree after →
          tree.nesting + (tree.kind?.any rule.opens).toNat ≤ maxNesting - depth := by
  have enoughAt : ∀ depth, maxNesting ≤ depth + calls :=
    fun depth => Nat.le_trans enough (Nat.le_add_left _ _)
  have filters := Production.run_filters (Nat.sub_le_sub_left deeper maxNesting) rule.production cursor
  exact ⟨_, _, rfl, rfl, rule.counts_parse (enoughAt depth) cursor,
    rule.counts_parse (enoughAt depth') cursor, filters, filters.tooDeep,
    fun tree after parsed => nesting_le parsed⟩

/-- The theorem applies to a name in two pairs of parentheses, three levels deep: from the depth at
which three levels are left it is parsed, and one level deeper it is not. -/
theorem Rule.parse_limited_parentheses :
    ∃ tree after violation after',
      Rule.expression.count maxNesting ⟨.ofStream (.ofSource (.ofText "M" "((a))")), 29⟩ =
          .ok tree ⟨after, 29⟩ ∧
        Rule.expression.count maxNesting ⟨.ofStream (.ofSource (.ofText "M" "((a))")), 30⟩ =
          .error violation ⟨after', 30⟩ ∧
        tree.nesting + (tree.kind?.any Rule.expression.opens).toNat ≤ 3 := by
  obtain ⟨result, result', parsed, failed, counted, counted', -, -, bound⟩ :=
    Rule.parse_limited .expression (.ofStream (.ofSource (.ofText "M" "((a))"))) 29 30 maxNesting
      (by decide) (by decide)
  have succeeds : (Rule.expression.parseWithin (maxNesting - 29)).place?
      (.ofStream (.ofSource (.ofText "M" "((a))"))) ≠ none := by
    decide +kernel
  have fails : (Rule.expression.parseWithin (maxNesting - 30)).place?
      (.ofStream (.ofSource (.ofText "M" "((a))"))) = none := by
    decide +kernel
  rw [Parser.place?, parsed] at succeeds
  rw [Parser.place?, failed] at fails
  cases result with
  | ok tree after =>
    cases result' with
    | ok _ _ => cases fails
    | error violation after' =>
      exact ⟨tree, after, violation, after', counted, counted', bound tree after rfl⟩
  | error _ _ => exact absurd rfl succeeds

end Oberon
