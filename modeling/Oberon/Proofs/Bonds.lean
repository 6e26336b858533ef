import Oberon.Proofs.Conditions
import Oberon.Proofs.Roles

/-!
# Parts that go together

The fields of a kind say which parts can occur, and each of them on its own.  What ties them to each
other are the bonds of the kind (`Kind.bonds`): items and their separators are counted, parts that
are introduced by one token are present or absent with it, and some parts depend on the word or mark
that the construct begins with.  A tree is coherent if the bonds of all its constructs hold
(`Tree.Coherent`).

An assembly does not always make a node of its parts, and sometimes several.  `Assembly.bonds` is
what has to hold of the parts so that the bonds hold of all nodes that come out
(`Tree.coherent_assemble`).
-/

namespace Oberon

namespace Kind

open Condition

/-- How the parts of a construct depend on each other. -/
def bonds : Kind → List Condition
  | range =>
    [exactlyOne (has .star) (has .upto),
      implies (has .star) (lacks [.lower, .upper, .byWord, .step]), together [.byWord, .step]]
  | designation =>
    [either (has .selectors) (has .flags),
      implies (has .selectors) (shows .selectors (.construct true))]
  | inquiry => [together [.ofWord, .operand]]
  | set | expressionList | flags | statements | templateParameters | importList | variableNames
  | parameterGroup | arrayType | mathArrayType | portList | portDeclaration =>
    [separated .item .separator]
  | indexList => [has .question, together [.lhs, .firstComma], together [.secondComma, .rhs]]
  | flag =>
    [together [.opening, .value],
      same (has .closing) (shows .opening (.token (.mark .leftParen)))]
  | forStatement => [together [.byWord, .step]]
  | withStatement => [separated .branch .separator]
  | caseStatement => [separated .branch .separator, implies (has .trailingBar) (has .branch)]
  | caseBranch => [separated .label .separator]
  | simpleStatement => [together [.operator, .value]]
  | moduleUnit => [together [.inWord, .context]]
  | importItem =>
    [together [.becomes, .imported], together [.opening, .arguments, .closing],
      together [.inWord, .context]]
  | constantSection | typeSection | variableSection => [parallel .item .terminator]
  | variableName => [together [.initializer, .value]]
  | procedureDeclaration =>
    -- only a procedure that is announced with an arrow ends after its heading
    [same (shows .modifier (.token (.mark .arrow)))
      (lacks [.declarations, .body, .ending, .closingName, .terminator]),
      together [.declarations, .ending, .closingName]]
  | formalParameters =>
    [separated .item .separator, together [.colon, .type], implies (has .flags) (has .colon)]
  | parameter | enumerationValue => [together [.equals, .value]]
  | body =>
    [exactlyOne (has .statements) (has .assembler),
      same (has .statements) (shows .keyword (.token (.word .BEGIN))),
      same (has .assembler) (shows .keyword (.token (.word .CODE))),
      together [.finallyWord, .finalStatements], implies (has .finallyWord) (has .statements)]
  | recordType => [parallel .item .semicolon, together [.opening, .base, .closing]]
  | objectType =>
    -- an object type without `END` is the generic one, to which nothing else belongs
    [same (neg (has .ending))
      (lacks [.flags, .opening, .base, .closing, .declarations, .body, .closingName]),
      together [.opening, .base, .closing], together [.declarations, .ending]]
  | enumeration => [separated .item .separator, together [.opening, .base, .closing]]
  | portType => [together [.opening, .value, .closing]]
  | qualifiedIdentifier => [together [.period, .member]]
  | _ => []

/-- No list is left out: wherever there are separators, they are counted. -/
theorem exists_separated
    {kind : Kind}
    (separators : Role.several .separator ∈ kind.fields) :
    ∃ items, separated items .separator ∈ kind.bonds := by
  cases kind with
  | withStatement => exact ⟨.branch, by decide⟩
  | caseStatement => exact ⟨.branch, by decide⟩
  | caseBranch => exact ⟨.label, by decide⟩
  | _ =>
    first
    | exact ⟨.item, by decide⟩
    | exact absurd separators (by decide)

end Kind

/-- The bonds of all constructs in a tree hold. -/
inductive Tree.Coherent : Tree → Prop
  | leaf
      (role : Role)
      (lexeme : Lexeme) :
      Coherent (leaf role lexeme)
  | missing
      (role : Role) :
      Coherent (missing role)
  | node
      {kind : Kind}
      {parts : List Tree}
      (role : Role)
      (span : Span)
      (bonds : ∀ bond ∈ kind.bonds, bond.Holds (parts.map Tree.glance))
      (inner : ∀ part ∈ parts, Coherent part) :
      Coherent (node role kind span parts)

namespace Assembly

open Condition

/-- What has to hold of the parts of an assembly. -/
def bonds : Assembly → List Condition
  | node kind => kind.bonds
  | unlessSingle kind => kind.bonds.map (either alone)
  -- only kinds without bonds are chained
  | chain kind => kind.bonds.map fun _ => known false
  | byRole role present absent =>
    present.bonds.map (implies (has role)) ++ absent.bonds.map (implies (neg (has role)))
  | indexList =>
    [separated .item .separator, implies (has .question) (same (has .item) (has .firstComma)),
      together [.secondComma, .rhs]]
  | allocation => Kind.allocation.bonds

end Assembly

/-- The roles of an index list with a `?`, cut before the first that is neither item nor comma. -/
structure AroundQuestion (front rest : List Role) : Prop where
  first : front = [] ∨ .item ∈ front
  inside : ∀ role ∈ front, role = .item ∨ role = .separator
  marked : .question ∈ rest
  outside : ∀ role ∈ rest, role ∈ [.firstComma, .question, .secondComma, .rhs]

namespace AroundQuestion

variable {front rest : List Role}

/-- Other roles than those of the front are behind it. -/
theorem mem_append_iff
    (h : AroundQuestion front rest)
    {role : Role}
    (other : role ∉ [.item, .separator]) :
    role ∈ front ++ rest ↔ role ∈ rest := by
  rw [List.mem_append, or_iff_right]
  intro before
  exact other (by simpa using h.inside role before)

/-- Items and commas are counted in front. -/
theorem count_append
    (h : AroundQuestion front rest)
    {role : Role}
    (own : role ∉ [.firstComma, .question, .secondComma, .rhs]) :
    (front ++ rest).count role = front.count role := by
  have away : role ∉ rest := fun among => own (h.outside role among)
  rw [List.count_append, List.count_eq_zero_of_not_mem away, Nat.add_zero]

end AroundQuestion

namespace Tree

theorem coherent_withRole
    {tree : Tree}
    (role : Role)
    (h : tree.Coherent) :
    (tree.withRole role).Coherent := by
  cases h with
  | leaf _ lexeme => exact .leaf role lexeme
  | missing _ => exact .missing role
  | node _ span bonds inner => exact .node role span bonds inner

variable {parts : List Tree}

theorem coherent_unlessSingle
    {kind : Kind}
    (span : Span)
    (bonds : ∀ bond ∈ kind.bonds, (Condition.either .alone bond).Holds (parts.map glance))
    (inner : ∀ part ∈ parts, part.Coherent) :
    (unlessSingle kind span parts).Coherent := by
  fun_cases unlessSingle kind span parts with
  | case1 role kind span children => exact coherent_withRole .root (inner _ List.mem_cons_self)
  | case2 _ several =>
    refine .node _ _ (fun bond member => (bonds bond member).resolve_left ?_) inner
    rintro ⟨role, filled, single⟩
    obtain ⟨part, rfl, look⟩ := List.map_eq_singleton_iff.mp single
    cases part with
    | leaf _ _ => cases look
    | missing _ => cases look
    | node role kind span children => exact several role kind span children rfl

theorem coherent_chain
    {kind : Kind}
    {start : Nat}
    {left : Tree}
    (free : kind.bonds = [])
    (first : left.Coherent)
    (inner : ∀ part ∈ parts, part.Coherent) :
    (chain kind start left parts).Coherent := by
  have unbound : ∀ bond ∈ kind.bonds, ∀ parts, bond.Holds parts := by
    rw [free]
    nofun
  fun_induction chain kind start left parts with
  | case1 => exact first
  | case2 left last =>
    refine .node _ _ (fun bond member => unbound bond member _) ?_
    intro part member
    simp only [List.mem_cons, List.not_mem_nil, or_false] at member
    rcases member with rfl | rfl
    · exact coherent_withRole _ first
    · exact inner part List.mem_cons_self
  | case3 left operator right rest ih =>
    refine ih (.node _ _ (fun bond member => unbound bond member _) ?_) (by simp_all)
    intro part member
    simp only [List.mem_cons, List.not_mem_nil, or_false] at member
    rcases member with rfl | rfl | rfl
    · exact coherent_withRole _ first
    · exact inner part (by simp)
    · exact coherent_withRole _ (inner right (by simp))

theorem exists_aroundQuestion
    {question : Tree}
    (found : parts.find? (·.role == .question) = some question)
    (order : Assembly.indexList.order.Admits (parts.map (·.role))) :
    ∃ front rest,
      (parts.takeWhile fun part => part.role == .item || part.role == .separator).map (·.role) =
          front ∧
        (parts.dropWhile fun part => part.role == .item || part.role == .separator).map (·.role) =
          rest ∧
        parts.map (·.role) = front ++ rest ∧
        AroundQuestion front rest := by
  obtain ⟨items, later⟩ := roles_before_question found order
  generalize read : (parts.takeWhile fun part =>
    part.role == .item || part.role == .separator).map (·.role) = front at items
  generalize others : (parts.dropWhile fun part =>
    part.role == .item || part.role == .separator).map (·.role) = rest at later
  have whole : parts.map (·.role) = front ++ rest := by
    rw [← read, ← others, ← List.map_append, List.takeWhile_append_dropWhile]
  have inside : ∀ role ∈ front, role = .item ∨ role = .separator := by
    intro role member
    simpa [Slot.roles] using Slot.mem_roles_of_advanceAll items member
  refine ⟨front, rest, rfl, rfl, whole, ?_, inside, ?_, ?_⟩
  · cases front with
    | nil => exact .inl rfl
    | cons role front =>
      obtain ⟨rfl, -⟩ := Slot.advanceAll_alternating_cons items
      exact .inr List.mem_cons_self
  · have occurs : .question ∈ parts.map (·.role) := by
      have same : question.role = .question := by simpa using List.find?_some found
      rw [← same]
      exact List.mem_map_of_mem (List.mem_of_find?_eq_some found)
    rw [whole] at occurs
    refine (List.mem_append.mp occurs).resolve_left fun among => ?_
    exact absurd (inside _ among) (by decide)
  · intro role member
    simpa [Slot.roles] using Slot.mem_roles_of_advanceAll later member

/-- A list of expressions has commas between its items. -/
theorem coherent_items
    (span : Span)
    (separated : (parts.map (·.role)).count .separator = (parts.map (·.role)).count .item - 1)
    (inner : ∀ part ∈ parts, part.Coherent) :
    (unlessSingle .expressionList span parts).Coherent := by
  refine coherent_unlessSingle span ?_ inner
  intro bond member
  obtain rfl := List.mem_singleton.mp member
  exact .inr (Condition.holds_separated.mpr (by rwa [map_fst_glance]))

/-- An index list with a `?`. -/
theorem coherent_question
    {span : Span}
    (question : .question ∈ parts.map (·.role))
    (left : .lhs ∈ parts.map (·.role) ↔ .firstComma ∈ parts.map (·.role))
    (right : .secondComma ∈ parts.map (·.role) ↔ .rhs ∈ parts.map (·.role))
    (inner : ∀ part ∈ parts, part.Coherent) :
    (node .root .indexList span parts).Coherent := by
  rw [← map_fst_glance] at question left right
  refine .node _ _ ?_ inner
  simp only [Kind.bonds, List.forall_mem_cons, List.not_mem_nil, false_implies, implies_true,
    and_true]
  exact ⟨question, Condition.holds_pair.mpr left, Condition.holds_pair.mpr right⟩

/-- The items before the `?` of an index list are a list of their own. -/
theorem coherent_indexList
    {span : Span}
    (order : Assembly.indexList.order.Admits (parts.map (·.role)))
    (bonds : ∀ bond ∈ Assembly.indexList.bonds, bond.Holds (parts.map glance))
    (inner : ∀ part ∈ parts, part.Coherent) :
    (indexList span parts).Coherent := by
  simp only [Assembly.bonds, List.forall_mem_cons, List.not_mem_nil, false_implies, implies_true,
    and_true, Condition.holds_separated, Condition.holds_implies, Condition.holds_same,
    Condition.holds_pair, Condition.Holds, map_fst_glance] at bonds
  obtain ⟨separated, joined, closed⟩ := bonds
  fun_cases indexList span parts with
  | case1 nowhere => exact coherent_items span separated inner
  | case2 question found before none =>
    obtain ⟨front, rest, read, -, whole, around⟩ := exists_aroundQuestion found order
    obtain rfl : [] = front := by rwa [none] at read
    rw [List.nil_append] at whole
    subst whole
    refine coherent_question around.marked ?_ closed inner
    rw [← joined around.marked]
    constructor
    · intro left
      exact absurd (around.outside _ left) (by decide)
    · intro item
      exact absurd (around.outside _ item) (by decide)
  | case3 question found before several left =>
    obtain ⟨front, rest, read, others, whole, around⟩ := exists_aroundQuestion found order
    rw [whole] at separated joined closed
    have item : .item ∈ front := by
      refine around.first.resolve_left fun none => several ?_
      rwa [none, List.map_eq_nil_iff] at read
    have comma : .firstComma ∈ rest := by
      rw [← around.mem_append_iff (by decide)]
      exact (joined (List.mem_append_right _ around.marked)).mp (List.mem_append_left _ item)
    have below : left.Coherent := by
      refine coherent_items _ ?_ fun part member =>
        inner part ((List.takeWhile_prefix before).subset member)
      rwa [read, ← around.count_append (by decide), ← around.count_append (by decide)]
    have roles : (left.withRole .lhs :: parts.dropWhile before).map (·.role) = .lhs :: rest := by
      rw [List.map_cons, role_withRole, ← others]
    refine coherent_question ?_ ?_ ?_ ?_
    · rw [roles]
      exact List.mem_cons_of_mem _ around.marked
    · rw [roles]
      exact iff_of_true List.mem_cons_self (List.mem_cons_of_mem _ comma)
    · rw [around.mem_append_iff (by decide), around.mem_append_iff (by decide)] at closed
      rw [roles]
      simpa using closed
    · intro part member
      rcases List.mem_cons.mp member with rfl | later
      · exact coherent_withRole _ below
      · exact inner part ((List.dropWhile_suffix before).subset later)

theorem coherent_allocation
    {span : Span}
    (bonds : ∀ bond ∈ Kind.allocation.bonds, bond.Holds (parts.map glance))
    (inner : ∀ part ∈ parts, part.Coherent) :
    (allocation span parts).Coherent := by
  fun_cases allocation span parts with
  | case1 _ lexeme =>
    refine .node _ _ (fun _ member => absurd member List.not_mem_nil) ?_
    intro part member
    obtain rfl := List.mem_singleton.mp member
    exact .leaf _ _
  | case2 => exact .node _ _ bonds inner

/-- The role tells which kind an assembly makes, and so whose bonds have to hold. -/
theorem coherent_byRole
    {role : Role}
    {present absent : Kind}
    {span : Span}
    (bonds : ∀ bond ∈ (Assembly.byRole role present absent).bonds, bond.Holds (parts.map glance))
    (inner : ∀ part ∈ parts, part.Coherent) :
    (assemble (.byRole role present absent) span parts).Coherent := by
  obtain ⟨ofPresent, ofAbsent⟩ := List.forall_mem_append.mp bonds
  simp only [List.forall_mem_map, Condition.holds_implies, Condition.Holds, map_fst_glance]
    at ofPresent ofAbsent
  refine .node _ _ ?_ inner
  intro bond member
  split at member
  · rename_i found
    exact ofPresent bond member (by simpa using found)
  · rename_i nowhere
    exact ofAbsent bond member (by simpa using nowhere)

/-- A construct is coherent if what has to hold of its parts does. -/
theorem coherent_assemble
    {assembly : Assembly}
    (span : Span)
    (order : assembly = .indexList → assembly.order.Admits (parts.map (·.role)))
    (bonds : ∀ bond ∈ assembly.bonds, bond.Holds (parts.map glance))
    (inner : ∀ part ∈ parts, part.Coherent) :
    (assemble assembly span parts).Coherent := by
  cases assembly with
  | node kind => exact .node _ _ bonds inner
  | unlessSingle kind =>
    refine coherent_unlessSingle span ?_ inner
    intro bond member
    exact bonds _ (List.mem_map_of_mem member)
  | chain kind =>
    have free : kind.bonds = [] := by
      refine List.eq_nil_iff_forall_not_mem.mpr fun bond member => ?_
      exact Bool.false_ne_true (bonds _ (List.mem_map_of_mem member))
    cases parts with
    | nil => exact .node _ _ (by simp [free]) nofun
    | cons first rest =>
      obtain ⟨first, others⟩ := List.forall_mem_cons.mp inner
      exact coherent_chain free (coherent_withRole _ first) others
  | byRole role present absent => exact coherent_byRole bonds inner
  | indexList => exact coherent_indexList (order rfl) bonds inner
  | allocation => exact coherent_allocation bonds inner

end Tree

end Oberon
