import Oberon.Proofs.Roles
import Oberon.Proofs.Turns

/-!
# Strata of expressions

Operators bind with different strength, and those of the same strength associate to the left.  In a
tree this means that some kinds of expressions do not occur as operands of others
(`Kind.excluded`).  Lists of expressions stand in a few places only (`Kind.holds`), and have two
items at least.  A tree in which all this holds everywhere is stratified (`Tree.Stratified`).

Whether a construct may have a part is seen from the role of the part and what it looks like from
outside (`Tree.look`, `Kind.allows`).  So an assembly can be checked against all that its parts can
look like, before there are any (`Assembly.layered`, `Assembly.Forms`), and then makes stratified
trees of stratified parts (`Tree.stratified_assemble`).
-/

namespace Oberon

namespace Kind

/-- The kinds that a part in a role is not of. -/
def excluded : Kind → Role → List Kind
  | relation, .lhs => [relation]
  | relation, .rhs => [relation]
  | range, .lower => [relation, range]
  | range, .upper => [relation, range]
  | range, .step => [relation, range]
  | sum, .lhs => [relation, range]
  | sum, .rhs => [relation, range, sum]
  | product, .lhs => [relation, range, sum]
  | product, .rhs => [relation, range, sum, product]
  | signed, .operand => [relation, range, sum, product]
  | inquiry, .operand => [relation, range, sum, product]
  | designation, .primary => [relation, range, sum, product, signed, designation]
  | _, _ => []

/-- Whether a part in a role can be of a kind: lists of expressions are arguments, the elements of
an array or parts of an index list, and index lists are indexes. -/
def holds (outer : Kind) (role : Role) : Kind → Bool
  | expressionList =>
    [(call, Role.arguments), (allocation, .arguments), (importItem, .arguments),
      (index, .arguments), (arrayValue, .inner), (indexList, .lhs), (indexList, .rhs)].contains
        (outer, role)
  | indexList => outer == index && role == .arguments
  | _ => true

/-- Whether a symbol is an operator of a kind of expression. -/
def isOperator : Kind → Symbol → Bool
  | relation, symbol => symbol.isRelation
  | sum, symbol => symbol.isAddOperator
  | product, symbol => symbol.isMulOperator
  | signed, symbol => [.mark .tilde, .mark .plus, .mark .minus].contains symbol
  | _, _ => true

/-- The parts of an operation, none of which is ever missing. -/
def form : Kind → Option (List Role)
  | relation => some [.lhs, .operator, .rhs]
  | sum => some [.lhs, .operator, .rhs]
  | product => some [.lhs, .operator, .rhs]
  | signed => some [.operator, .operand]
  | _ => none

/-- What holds of a construct and its parts. -/
structure Admits (kind : Kind) (parts : List Tree) : Prop where
  operand : ∀ part ∈ parts, kind.excluded part.role ≠ [] →
    ∃ inner, part.kind? = some inner ∧ inner ∉ kind.excluded part.role
  list : ∀ part ∈ parts, ∀ inner, part.kind? = some inner → kind.holds part.role inner = true
  operator : ∀ part ∈ parts, part.role = .operator →
    ∃ symbol, part.symbol? = some symbol ∧ kind.isOperator symbol = true
  form : ∀ roles, kind.form = some roles → parts.map (·.role) = roles
  several : kind = .expressionList → 2 ≤ (parts.map (·.role)).count .item

end Kind

/-- Precedence and associativity hold everywhere in a tree. -/
inductive Tree.Stratified : Tree → Prop
  | leaf
      (role : Role)
      (lexeme : Lexeme) :
      Stratified (leaf role lexeme)
  | missing
      (role : Role) :
      Stratified (missing role)
  | node
      {kind : Kind}
      {parts : List Tree}
      (role : Role)
      (span : Span)
      (admits : kind.Admits parts)
      (inner : ∀ part ∈ parts, Stratified part) :
      Stratified (node role kind span parts)

/-- What a part looks like from outside. -/
inductive Look where
  | construct (kind : Kind)
  | operator (symbol : Symbol)
  | other
  deriving DecidableEq

namespace Look

def kind? : Look → Option Kind
  | construct kind => some kind
  | _ => none

end Look

namespace Tree

/-- The role of a part and what it looks like. -/
def look : Tree → Role × Look
  | leaf .operator lexeme => (.operator, .operator lexeme.symbol)
  | leaf role _ => (role, .other)
  | missing role => (role, .other)
  | node role kind _ _ => (role, .construct kind)

@[simp] theorem fst_look
    (tree : Tree) :
    tree.look.1 = tree.role := by
  fun_cases look tree <;> rfl

@[simp] theorem kind?_look
    (tree : Tree) :
    tree.look.2.kind? = tree.kind? := by
  fun_cases look tree <;> rfl

theorem look_of_kind?
    {tree : Tree}
    {kind : Kind}
    (same : tree.kind? = some kind) :
    tree.look = (tree.role, .construct kind) := by
  cases tree with
  | leaf _ _ => cases same
  | missing _ => cases same
  | node _ _ _ _ =>
    cases same
    rfl

theorem stratified_withRole
    {tree : Tree}
    (role : Role)
    (h : tree.Stratified) :
    (tree.withRole role).Stratified := by
  cases h with
  | leaf _ lexeme => exact .leaf role lexeme
  | missing _ => exact .missing role
  | node _ span admits inner => exact .node role span admits inner

end Tree

namespace Kind

/-- Whether a construct can have a part that looks like this. -/
def allows (outer : Kind) : Role × Look → Bool
  | (role, .construct inner) =>
    role != .operator && !(outer.excluded role).contains inner && outer.holds role inner
  | (role, .operator symbol) => (outer.excluded role).isEmpty && outer.isOperator symbol
  | (role, .other) => role != .operator && (outer.excluded role).isEmpty

theorem excluded_of_allows
    {kind : Kind}
    {look : Role × Look}
    (allowed : kind.allows look = true)
    (other : look.2.kind? = none) :
    kind.excluded look.1 = [] := by
  rcases look with ⟨role, inner | symbol | _⟩
  · cases other
  · exact List.isEmpty_iff.mp (Bool.and_eq_true_iff.mp allowed).1
  · exact List.isEmpty_iff.mp (Bool.and_eq_true_iff.mp allowed).2

/-- What holds of the parts one by one is seen from outside. -/
theorem admits_of_allows
    {kind : Kind}
    {parts : List Tree}
    (allowed : ∀ part ∈ parts, kind.allows part.look = true)
    (form : ∀ roles, kind.form = some roles → parts.map (·.role) = roles)
    (several : kind = .expressionList → 2 ≤ (parts.map (·.role)).count .item) :
    kind.Admits parts := by
  have construct : ∀ part ∈ parts, ∀ inner, part.kind? = some inner →
      inner ∉ kind.excluded part.role ∧ kind.holds part.role inner = true := by
    intro part member inner same
    have seen := allowed part member
    rw [Tree.look_of_kind? same] at seen
    have all : part.role ≠ .operator ∧ inner ∉ kind.excluded part.role ∧
        kind.holds part.role inner = true := by
      simpa [allows, and_assoc] using seen
    exact all.2
  refine ⟨?_, ?_, ?_, form, several⟩
  · intro part member bound
    cases same : part.kind? with
    | some inner => exact ⟨inner, rfl, (construct part member inner same).1⟩
    | none =>
      have none := excluded_of_allows (allowed part member) (by rw [Tree.kind?_look, same])
      rw [Tree.fst_look] at none
      exact absurd none bound
  · intro part member inner same
    exact (construct part member inner same).2
  · intro part member operator
    have seen := allowed part member
    cases part with
    | leaf role lexeme =>
      cases operator
      exact ⟨lexeme.symbol, rfl, (Bool.and_eq_true_iff.mp seen).2⟩
    | missing role =>
      cases operator
      cases seen
    | node role kind span children =>
      cases operator
      cases seen

/-- What is seen from outside holds of the parts one by one. -/
theorem Admits.allows
    {kind : Kind}
    {parts : List Tree}
    {part : Tree}
    (h : kind.Admits parts)
    (member : part ∈ parts) :
    kind.allows part.look = true := by
  have operand := h.operand part member
  have operator := h.operator part member
  have free : part.kind? = none → (kind.excluded part.role).isEmpty = true := by
    intro none
    by_cases empty : kind.excluded part.role = []
    · exact List.isEmpty_iff.mpr empty
    · obtain ⟨inner, found, -⟩ := operand empty
      cases none.symm.trans found
  cases part with
  | leaf role lexeme =>
    by_cases same : role = .operator
    · subst same
      obtain ⟨symbol, found, fits⟩ := operator rfl
      cases found
      exact Bool.and_eq_true_iff.mpr ⟨free rfl, fits⟩
    · rw [Tree.look]
      · exact Bool.and_eq_true_iff.mpr ⟨bne_iff_ne.mpr same, free rfl⟩
      · exact same
  | missing role =>
    have other : role ≠ .operator := by
      rintro rfl
      obtain ⟨symbol, found, -⟩ := operator rfl
      cases found
    exact Bool.and_eq_true_iff.mpr ⟨bne_iff_ne.mpr other, free rfl⟩
  | node role inner span children =>
    have other : role ≠ .operator := by
      rintro rfl
      obtain ⟨symbol, found, -⟩ := operator rfl
      cases found
    have outside : inner ∉ kind.excluded role := by
      intro among
      obtain ⟨same, found, apart⟩ := operand (List.ne_nil_of_mem among)
      cases found
      exact apart among
    have held : kind.holds role inner = true := h.list _ member inner rfl
    simp [Tree.look, Kind.allows, other, outside, held]

/-- Nothing is asked of the roles of the parts together. -/
def formless (kind : Kind) : Bool := kind.form.isNone && kind != .expressionList

theorem form_of_formless
    {kind : Kind}
    (h : kind.formless = true) :
    kind.form = none ∧ kind ≠ .expressionList := by
  simpa [formless] using h

theorem admits_of_formless
    {kind : Kind}
    {parts : List Tree}
    (formless : kind.formless = true)
    (allowed : ∀ part ∈ parts, kind.allows part.look = true) :
    kind.Admits parts := by
  obtain ⟨none, other⟩ := form_of_formless formless
  refine admits_of_allows allowed ?_ fun same => absurd same other
  intro roles same
  cases none.symm.trans same

end Kind

/-- True if whatever has a role is a construct. -/
def Look.constructsIn (looks : List (Role × Look)) (role : Role) : Bool :=
  looks.all fun look => look.1 != role || look.2.kind?.isSome

namespace Assembly

/-- The kinds that an assembly can make of parts. -/
def kinds (looks : List (Role × Look)) : Assembly → List Kind
  | node kind => [kind]
  | unlessSingle kind => kind :: looks.filterMap (·.2.kind?)
  | chain kind => kind :: looks.filterMap (·.2.kind?)
  | byRole _ present absent => [present, absent]
  | indexList => .indexList :: .expressionList :: looks.filterMap (·.2.kind?)
  | allocation => [.literal, .allocation]

/-- Checks the parts of an assembly one by one. -/
def layered (looks : List (Role × Look)) : Assembly → Bool
  | node kind => looks.all kind.allows
  | unlessSingle kind => looks.all kind.allows
  | chain kind =>
    -- an operand can come to stand on either side, and what was joined on the left
    kind.form == some [.lhs, .operator, .rhs] && kind != .expressionList &&
      kind.allows (.lhs, .construct kind) && Look.constructsIn looks .item &&
        looks.all fun look =>
          if look.1 = .item then kind.allows (.lhs, look.2) && kind.allows (.rhs, look.2)
          else kind.allows look
  | byRole _ present absent =>
    looks.all present.allows && present.formless && looks.all absent.allows && absent.formless
  | indexList =>
    Kind.indexList.allows (.lhs, .construct .expressionList) && Look.constructsIn looks .item &&
      looks.all fun look =>
        if look.1 = .item then
          Kind.expressionList.allows look && Kind.indexList.allows (.lhs, look.2)
        else if look.1 = .separator then Kind.expressionList.allows look
        else Kind.indexList.allows look
  | allocation => looks.all Kind.allocation.allows

/-- The role that joins the items of an assembly. -/
def joint : Assembly → Role
  | chain _ => .operator
  | _ => .separator

/-- Checks what remains of the roles of all parts. -/
def formed (looks : List (Role × Look)) : Assembly → List Role → Bool
  | node kind, rest => kind.form == some rest && rest.head? != some .item && kind != .expressionList
  | unlessSingle kind, rest =>
    if rest = [.item] then kind == .expressionList && Look.constructsIn looks .item
    else
      rest.head? != some .item && kind != .expressionList &&
        (kind.form == some rest || rest.length == 1 && rest.all (Look.constructsIn looks))
  | chain _, rest => rest == [.item]
  | indexList, rest =>
    (rest == [.item] || rest.contains .question) &&
      (if rest.head? = some .item then rest.tail else rest).all fun role =>
        role != .item && role != .separator
  | _, _ => true

/-- True if nothing is asked of the roles of all parts. -/
def formless : Assembly → Bool
  | node kind => kind.formless
  | unlessSingle kind => kind.formless
  | chain _ => false
  | indexList => false
  | _ => true

/-- What is asked of the roles of all parts. -/
def Forms (assembly : Assembly) (looks : List (Role × Look)) (roles : List Role) : Prop :=
  assembly.formless = true ∨
    assembly.formed looks (roles.foldl (Role.join assembly.joint) []) = true

end Assembly

namespace Tree

variable
  {looks : List (Role × Look)}
  {parts : List Tree}

/-- Parts are constructs where all that can be there are. -/
theorem exists_of_constructsIn
    {part : Tree}
    (seen : part.look ∈ looks)
    (all : Look.constructsIn looks part.role = true) :
    ∃ kind, part.look = (part.role, .construct kind) := by
  have found : part.kind?.isSome = true := by
    simpa using List.all_eq_true.mp all part.look seen
  obtain ⟨kind, same⟩ := Option.isSome_iff_exists.mp found
  exact ⟨kind, look_of_kind? same⟩

theorem stratified_of_allows
    {kind : Kind}
    (span : Span)
    (seen : ∀ part ∈ parts, part.look ∈ looks)
    (allowed : looks.all kind.allows = true)
    (form : ∀ roles, kind.form = some roles → parts.map (·.role) = roles)
    (several : kind = .expressionList → 2 ≤ (parts.map (·.role)).count .item)
    (inner : ∀ part ∈ parts, part.Stratified) :
    (node .root kind span parts).Stratified := by
  refine .node _ _ (Kind.admits_of_allows ?_ form several) inner
  intro part member
  exact List.all_eq_true.mp allowed _ (seen part member)

/-- A part that stands alone is a construct if all that can be there are. -/
theorem kind?_of_alone
    {role : Role}
    (seen : ∀ part ∈ parts, part.look ∈ looks)
    (alone : parts.map (·.role) = [role])
    (all : Look.constructsIn looks role = true) :
    ∃ part kind, parts = [part] ∧ part.kind? = some kind := by
  obtain ⟨part, rfl, rfl⟩ := List.map_eq_singleton_iff.mp alone
  obtain ⟨kind, look⟩ := exists_of_constructsIn (seen part List.mem_cons_self) all
  refine ⟨part, kind, rfl, ?_⟩
  rw [← kind?_look, look]
  rfl

/-- Items in turn that are not a construct alone are several. -/
theorem two_le_count_of_turns
    {turns : List Role}
    (seen : ∀ part ∈ parts, part.look ∈ looks)
    (roles : parts.map (·.role) = .item :: turns)
    (inTurn : Role.Turns .separator turns)
    (all : Look.constructsIn looks .item = true)
    (several : ¬ ∃ part kind, parts = [part] ∧ part.kind? = some kind) :
    2 ≤ (parts.map (·.role)).count .item := by
  rw [roles]
  apply inTurn.two_le
  rintro rfl
  exact several (kind?_of_alone seen roles all)

/-- Parts that are not a construct alone have the form of their kind. -/
theorem form_of_several
    {kind : Kind}
    (seen : ∀ part ∈ parts, part.look ∈ looks)
    (forms : (Assembly.unlessSingle kind).Forms looks (parts.map (·.role)))
    (several : ¬ ∃ part kind, parts = [part] ∧ part.kind? = some kind) :
    (∀ roles, kind.form = some roles → parts.map (·.role) = roles) ∧
      (kind = .expressionList → 2 ≤ (parts.map (·.role)).count .item) := by
  rcases forms with formless | formed
  · obtain ⟨none, other⟩ := Kind.form_of_formless formless
    refine ⟨?_, fun same => absurd same other⟩
    intro roles same
    cases none.symm.trans same
  · generalize read : (parts.map (·.role)).foldl (Role.join .separator) [] = rest at formed
    simp only [Assembly.joint, read, Assembly.formed] at formed
    split at formed
    · rename_i items
      simp only [Bool.and_eq_true, beq_iff_eq] at formed
      obtain ⟨turns, inTurn, roles⟩ := Role.exists_turns (read.trans items) (by simp)
      rw [List.append_nil] at roles
      refine ⟨?_, fun _ => two_le_count_of_turns seen roles inTurn formed.2 several⟩
      intro roles same
      rw [formed.1] at same
      cases same
    · simp only [Bool.and_eq_true, bne_iff_ne, Bool.or_eq_true, beq_iff_eq] at formed
      have roles := Role.eq_of_foldl_join read formed.1.1
      refine ⟨?_, fun same => absurd same formed.1.2⟩
      intro form same
      rcases formed.2 with whole | ⟨one, all⟩
      · rw [roles]
        exact Option.some.inj (whole.symm.trans same)
      · obtain ⟨role, rfl⟩ := List.length_eq_one_iff.mp one
        have construct : Look.constructsIn looks role = true := by simpa using all
        exact absurd (kind?_of_alone seen roles construct) several

/-- A construct that is not replaced by its only part. -/
theorem not_alone
    (other : ∀ role kind span children, parts ≠ [node role kind span children]) :
    ¬ ∃ part kind, parts = [part] ∧ part.kind? = some kind := by
  rintro ⟨part, kind, rfl, construct⟩
  cases part with
  | leaf _ _ => cases construct
  | missing _ => cases construct
  | node role kind span children => exact other role kind span children rfl

theorem stratified_unlessSingle
    {kind : Kind}
    (span : Span)
    (seen : ∀ part ∈ parts, part.look ∈ looks)
    (allowed : looks.all kind.allows = true)
    (forms : (Assembly.unlessSingle kind).Forms looks (parts.map (·.role)))
    (inner : ∀ part ∈ parts, part.Stratified) :
    (unlessSingle kind span parts).Stratified := by
  fun_cases unlessSingle kind span parts with
  | case1 role kind span children => exact stratified_withRole .root (inner _ List.mem_cons_self)
  | case2 _ other =>
    obtain ⟨form, several⟩ := form_of_several seen forms (not_alone other)
    exact stratified_of_allows _ seen allowed form several inner

theorem look_unlessSingle
    (kind : Kind)
    (span : Span)
    (seen : ∀ part ∈ parts, part.look ∈ looks) :
    ∃ found ∈ kind :: looks.filterMap (·.2.kind?),
      (unlessSingle kind span parts).look = (.root, .construct found) := by
  fun_cases unlessSingle kind span parts with
  | case1 role inner span children =>
    refine ⟨inner, List.mem_cons_of_mem _ ?_, rfl⟩
    exact List.mem_filterMap.mpr ⟨_, seen _ List.mem_cons_self, rfl⟩
  | case2 => exact ⟨kind, List.mem_cons_self, rfl⟩

theorem look_withRole
    {tree : Tree}
    {before : Role}
    {kind : Kind}
    (look : tree.look = (before, .construct kind))
    (role : Role) :
    (tree.withRole role).look = (role, .construct kind) := by
  have same : tree.kind? = some kind := by
    rw [← kind?_look, look]
    rfl
  cases tree with
  | leaf _ _ => cases same
  | missing _ => cases same
  | node _ _ _ _ =>
    cases same
    rfl

/-- Two operands and the operator between them are an operation. -/
theorem stratified_operation
    {kind first : Kind}
    {left operator right : Tree}
    (span : Span)
    (layered : (Assembly.chain kind).layered looks = true)
    (look : left.look = (.root, .construct first))
    (fits : kind.allows (.lhs, .construct first) = true)
    (operation : operator.role = .operator)
    (item : right.role = .item)
    (seen : ∀ part ∈ [operator, right], part.look ∈ looks)
    (inner : ∀ part ∈ [left, operator, right], part.Stratified) :
    (node .root kind span [left.withRole .lhs, operator, right.withRole .rhs]).Stratified := by
  simp only [Assembly.layered, Bool.and_eq_true, beq_iff_eq, bne_iff_ne] at layered
  obtain ⟨⟨⟨⟨form, other⟩, -⟩, constructs⟩, allowed⟩ := layered
  have rightSeen := seen right (by simp)
  have ofOperator := List.all_eq_true.mp allowed _ (seen operator (by simp))
  rw [fst_look, operation, if_neg nofun] at ofOperator
  obtain ⟨second, rightLook⟩ := exists_of_constructsIn rightSeen (item ▸ constructs)
  have ofRight := List.all_eq_true.mp allowed _ rightSeen
  rw [rightLook, item, if_pos rfl, Bool.and_eq_true] at ofRight
  refine .node _ _ (Kind.admits_of_allows ?_ ?_ fun same => absurd same other) ?_
  · intro part member
    simp only [List.mem_cons, List.not_mem_nil, or_false] at member
    rcases member with rfl | rfl | rfl
    · rwa [look_withRole look]
    · exact ofOperator
    · rw [look_withRole rightLook]
      exact ofRight.2
  · intro roles same
    simpa [operation] using Option.some.inj (form.symm.trans same)
  · intro part member
    simp only [List.mem_cons, List.not_mem_nil, or_false] at member
    rcases member with rfl | rfl | rfl
    · exact stratified_withRole _ (inner left (by simp))
    · exact inner part (by simp)
    · exact stratified_withRole _ (inner right (by simp))

/-- Joining operands keeps to the layers: what has been joined so far is the left operand of the
next operator. -/
theorem stratified_chain
    {kind : Kind}
    {start : Nat}
    {left : Tree}
    {first : Kind}
    (layered : (Assembly.chain kind).layered looks = true)
    (inTurn : Role.Turns .operator (parts.map (·.role)))
    (seen : ∀ part ∈ parts, part.look ∈ looks)
    (inner : ∀ part ∈ parts, part.Stratified)
    (look : left.look = (.root, .construct first))
    (fits : kind.allows (.lhs, .construct first) = true)
    (stratified : left.Stratified) :
    (chain kind start left parts).Stratified ∧
      ∃ found ∈ [kind, first], (chain kind start left parts).look = (.root, .construct found) := by
  fun_induction chain kind start left parts generalizing first with
  | case1 left => exact ⟨stratified, first, by simp, look⟩
  | case2 left last =>
    obtain ⟨-, rest, none, -⟩ := inTurn.of_cons
    cases none
  | case3 left operator right rest ih =>
    obtain ⟨operation, others, same, further⟩ := inTurn.of_cons
    obtain ⟨item, rfl⟩ := List.cons.inj same
    have again : kind.allows (.lhs, .construct kind) = true := by
      simp only [Assembly.layered, Bool.and_eq_true] at layered
      exact layered.1.1.2
    have joined := stratified_operation (spanTo start right) layered look fits operation item
      (by simp_all) (by simp_all)
    obtain ⟨below, found, member, same⟩ := ih further (by simp_all) (by simp_all) rfl again joined
    exact ⟨below, found, by simp_all, same⟩

/-- The items of an index list come first, and its other parts are neither items nor commas between
them. -/
theorem roles_of_indexList
    {roles : List Role}
    (forms : Assembly.indexList.Forms looks roles) :
    (∃ turns later, Role.Turns .separator turns ∧ roles = .item :: turns ++ later ∧
      (∀ role ∈ later, role ≠ .item ∧ role ≠ .separator) ∧ (later = [] ∨ .question ∈ later)) ∨
    (∀ role ∈ roles, role ≠ .item ∧ role ≠ .separator) ∧ .question ∈ roles := by
  rcases forms with formless | formed
  · cases formless
  · generalize read : roles.foldl (Role.join .separator) [] = rest at formed
    simp only [Assembly.joint, read, Assembly.formed, Bool.and_eq_true, Bool.or_eq_true,
      beq_iff_eq, List.contains_iff_mem] at formed
    obtain ⟨shape, outside⟩ := formed
    split at outside
    · rename_i first
      obtain ⟨later, rfl⟩ := List.head?_eq_some_iff.mp first
      have apart : ∀ role ∈ later, role ≠ .item ∧ role ≠ .separator := by simpa using outside
      have head : later.head? ≠ some .separator := by
        intro same
        exact (apart _ (List.mem_of_head? same)).2 rfl
      obtain ⟨turns, inTurn, same⟩ := Role.exists_turns read head
      refine .inl ⟨turns, later, inTurn, same, apart, ?_⟩
      simpa using shape
    · rename_i other
      obtain rfl := Role.eq_of_foldl_join read other
      refine .inr ⟨by simpa using outside, ?_⟩
      rcases shape with single | member
      · rw [single] at other
        exact absurd rfl other
      · exact member

/-- The items of an index list are one of its operands. -/
theorem stratified_items
    {turns : List Role}
    (span : Span)
    (layered : Assembly.indexList.layered looks = true)
    (roles : parts.map (·.role) = .item :: turns)
    (inTurn : Role.Turns .separator turns)
    (seen : ∀ part ∈ parts, part.look ∈ looks)
    (inner : ∀ part ∈ parts, part.Stratified) :
    (unlessSingle .expressionList span parts).Stratified ∧
      ∃ found ∈ .expressionList :: looks.filterMap (·.2.kind?),
        (unlessSingle .expressionList span parts).look = (.root, .construct found) ∧
          Kind.indexList.allows (.lhs, .construct found) = true := by
  simp only [Assembly.layered, Bool.and_eq_true] at layered
  obtain ⟨⟨whole, constructs⟩, allowed⟩ := layered
  rw [List.all_eq_true] at allowed
  fun_cases unlessSingle .expressionList span parts with
  | case1 role kind span children =>
    have first := seen _ List.mem_cons_self
    obtain ⟨rfl, -⟩ := List.cons.inj roles
    have fits := allowed _ first
    rw [look, if_pos rfl, Bool.and_eq_true] at fits
    refine ⟨stratified_withRole .root (inner _ List.mem_cons_self), kind, ?_, rfl, fits.2⟩
    exact List.mem_cons_of_mem _ (List.mem_filterMap.mpr ⟨_, first, rfl⟩)
  | case2 _ other =>
    refine ⟨.node _ _ (Kind.admits_of_allows ?_ (by rintro _ ⟨⟩) fun _ => ?_) inner, .expressionList,
      List.mem_cons_self, rfl, whole⟩
    · intro part member
      have fits := allowed _ (seen part member)
      have role : part.role ∈ .item :: turns := roles ▸ List.mem_map_of_mem member
      rw [fst_look] at fits
      split at fits
      · exact (Bool.and_eq_true_iff.mp fits).1
      · rename_i notItem
        have separator : part.role = .separator := by
          rcases List.mem_cons.mp role with item | among
          · exact absurd item notItem
          · exact (inTurn.of_mem among).resolve_right notItem
        rwa [if_pos separator] at fits
    · exact two_le_count_of_turns seen roles inTurn constructs (not_alone other)

/-- The parts of an index list from its `?` on. -/
theorem allows_of_indexList
    {part : Tree}
    (layered : Assembly.indexList.layered looks = true)
    (seen : part.look ∈ looks)
    (outside : part.role ≠ .item ∧ part.role ≠ .separator) :
    Kind.indexList.allows part.look = true := by
  simp only [Assembly.layered, Bool.and_eq_true] at layered
  have fits := List.all_eq_true.mp layered.2 _ seen
  rwa [fst_look, if_neg outside.1, if_neg outside.2] at fits

/-- Cutting the parts before the first that is neither item nor comma. -/
theorem roles_takeWhile
    {turns later : List Role}
    (inTurn : Role.Turns .separator turns)
    (roles : parts.map (·.role) = .item :: turns ++ later)
    (outside : ∀ role ∈ later, role ≠ .item ∧ role ≠ .separator) :
    (parts.takeWhile fun part => part.role == .item || part.role == .separator).map (·.role) =
        .item :: turns ∧
      (parts.dropWhile fun part => part.role == .item || part.role == .separator).map (·.role) =
        later := by
  have split := inTurn.takeWhile_append (fun role => role == .item || role == .separator)
    (by simp [or_comm]) (by simpa using outside)
  rwa [← roles, List.takeWhile_map, List.dropWhile_map] at split

theorem stratified_indexList
    (span : Span)
    (layered : Assembly.indexList.layered looks = true)
    (forms : Assembly.indexList.Forms looks (parts.map (·.role)))
    (seen : ∀ part ∈ parts, part.look ∈ looks)
    (inner : ∀ part ∈ parts, part.Stratified) :
    (indexList span parts).Stratified ∧
      ∃ found ∈ Assembly.indexList.kinds looks,
        (indexList span parts).look = (.root, .construct found) := by
  have shape := roles_of_indexList forms
  fun_cases indexList span parts with
  | case1 nowhere =>
    have none : .question ∉ parts.map (·.role) := by simpa using nowhere
    rcases shape with ⟨turns, later, inTurn, roles, -, rfl | question⟩ | ⟨-, question⟩
    · rw [List.append_nil] at roles
      obtain ⟨below, found, member, look, -⟩ :=
        stratified_items span layered roles inTurn seen inner
      exact ⟨below, found, List.mem_cons_of_mem _ member, look⟩
    · rw [roles] at none
      exact absurd (List.mem_append_right _ question) none
    · exact absurd question none
  | case2 question found before nothing =>
    refine ⟨.node _ _ (Kind.admits_of_formless rfl ?_) inner, _, List.mem_cons_self, rfl⟩
    rcases shape with ⟨turns, later, inTurn, roles, outside, -⟩ | ⟨outside, -⟩
    · have front := (roles_takeWhile inTurn roles outside).1
      rw [nothing] at front
      cases front
    · intro part member
      exact allows_of_indexList layered (seen part member) (outside _ (List.mem_map_of_mem member))
  | case3 question found before several left =>
    refine ⟨?_, _, List.mem_cons_self, rfl⟩
    rcases shape with ⟨turns, later, inTurn, roles, outside, -⟩ | ⟨outside, -⟩
    · obtain ⟨front, back⟩ := roles_takeWhile inTurn roles outside
      have among : ∀ part ∈ parts.takeWhile before, part ∈ parts := fun part member =>
        (List.takeWhile_prefix before).subset member
      have behind : ∀ part ∈ parts.dropWhile before, part ∈ parts := fun part member =>
        (List.dropWhile_suffix before).subset member
      obtain ⟨below, kind, -, look, fits⟩ := stratified_items
        (spanTo span.start question) layered front inTurn
        (fun part member => seen part (among part member))
        (fun part member => inner part (among part member))
      refine .node _ _ (Kind.admits_of_formless rfl ?_) ?_
      · intro part member
        rcases List.mem_cons.mp member with rfl | later
        · rwa [look_withRole look]
        · refine allows_of_indexList layered (seen part (behind part later)) (outside _ ?_)
          rw [← back]
          exact List.mem_map_of_mem later
      · intro part member
        rcases List.mem_cons.mp member with rfl | later
        · exact stratified_withRole _ below
        · exact inner part (behind part later)
    · refine absurd ?_ several
      cases parts with
      | nil => rfl
      | cons part parts =>
        have first := outside part.role List.mem_cons_self
        exact List.takeWhile_cons_of_neg (by simp [before, first])

theorem stratified_allocation
    (span : Span)
    (layered : Assembly.allocation.layered looks = true)
    (seen : ∀ part ∈ parts, part.look ∈ looks)
    (inner : ∀ part ∈ parts, part.Stratified) :
    (allocation span parts).Stratified ∧
      ∃ found ∈ Assembly.allocation.kinds looks,
        (allocation span parts).look = (.root, .construct found) := by
  fun_cases allocation span parts with
  | case1 _ lexeme =>
    refine ⟨.node _ _ (Kind.admits_of_formless rfl ?_) ?_, .literal, List.mem_cons_self, rfl⟩
    · intro part member
      cases List.mem_singleton.mp member
      rfl
    · intro part member
      cases List.mem_singleton.mp member
      exact .leaf _ _
  | case2 =>
    refine ⟨.node _ _ (Kind.admits_of_formless rfl ?_) inner, .allocation, ?_, rfl⟩
    · intro part member
      exact List.all_eq_true.mp layered _ (seen part member)
    · exact List.mem_cons_of_mem _ List.mem_cons_self

/-- The roles of the parts of a node are the form of its kind, if that has one. -/
theorem form_of_node
    {kind : Kind}
    {roles : List Role}
    (forms : (Assembly.node kind).Forms looks roles) :
    (∀ form, kind.form = some form → roles = form) ∧ kind ≠ .expressionList := by
  rcases forms with formless | formed
  · obtain ⟨none, other⟩ := Kind.form_of_formless formless
    refine ⟨?_, other⟩
    intro form same
    cases none.symm.trans same
  · generalize read : roles.foldl (Role.join .separator) [] = rest at formed
    simp only [Assembly.joint, read, Assembly.formed, Bool.and_eq_true, beq_iff_eq, bne_iff_ne]
      at formed
    refine ⟨?_, formed.2⟩
    intro form same
    rw [Role.eq_of_foldl_join read formed.1.2]
    exact Option.some.inj (formed.1.1.symm.trans same)

/-- A chain begins with an operand, which the first operator joins to the next one. -/
theorem stratified_operands
    {kind : Kind}
    (span : Span)
    (layered : (Assembly.chain kind).layered looks = true)
    (forms : (Assembly.chain kind).Forms looks (parts.map (·.role)))
    (seen : ∀ part ∈ parts, part.look ∈ looks)
    (inner : ∀ part ∈ parts, part.Stratified) :
    (assemble (.chain kind) span parts).Stratified ∧
      ∃ found ∈ (Assembly.chain kind).kinds looks,
        (assemble (.chain kind) span parts).look = (.root, .construct found) := by
  rcases forms with formless | formed
  · cases formless
  · have read : (parts.map (·.role)).foldl (Role.join .operator) [] = [.item] :=
      beq_iff_eq.mp formed
    obtain ⟨turns, inTurn, roles⟩ := Role.exists_turns read nofun
    rw [List.append_nil] at roles
    cases parts with
    | nil => cases roles
    | cons first rest =>
      rw [List.map_cons] at roles
      obtain ⟨item, rfl⟩ := List.cons.inj roles
      have checked := layered
      simp only [Assembly.layered, Bool.and_eq_true] at checked
      have firstSeen := seen first List.mem_cons_self
      obtain ⟨kind', look⟩ := exists_of_constructsIn firstSeen (item ▸ checked.1.2)
      have fits := List.all_eq_true.mp checked.2 _ firstSeen
      rw [look, item, if_pos rfl, Bool.and_eq_true] at fits
      obtain ⟨below, found, member, same⟩ := stratified_chain layered inTurn
        (fun part later => seen part (List.mem_cons_of_mem _ later))
        (fun part later => inner part (List.mem_cons_of_mem _ later))
        (look_withRole look .root) fits.1
        (stratified_withRole .root (inner first List.mem_cons_self))
      refine ⟨below, found, ?_, same⟩
      rcases List.mem_cons.mp member with rfl | other
      · exact List.mem_cons_self
      · rw [List.mem_singleton.mp other]
        refine List.mem_cons_of_mem _ (List.mem_filterMap.mpr ⟨_, firstSeen, ?_⟩)
        rw [look]
        rfl

/-- A construct whose parts are checked is stratified. -/
theorem stratified_assemble
    {assembly : Assembly}
    (span : Span)
    (layered : assembly.layered looks = true)
    (forms : assembly.Forms looks (parts.map (·.role)))
    (seen : ∀ part ∈ parts, part.look ∈ looks)
    (inner : ∀ part ∈ parts, part.Stratified) :
    (assemble assembly span parts).Stratified ∧
      ∃ found ∈ assembly.kinds looks,
        (assemble assembly span parts).look = (.root, .construct found) := by
  cases assembly with
  | node kind =>
    obtain ⟨form, other⟩ := form_of_node forms
    refine ⟨?_, kind, List.mem_cons_self, rfl⟩
    exact stratified_of_allows _ seen layered form (fun same => absurd same other) inner
  | unlessSingle kind =>
    exact ⟨stratified_unlessSingle span seen layered forms inner, look_unlessSingle kind span seen⟩
  | chain kind => exact stratified_operands span layered forms seen inner
  | byRole role present absent =>
    simp only [Assembly.layered, Bool.and_eq_true] at layered
    obtain ⟨⟨⟨ofPresent, presentFormless⟩, ofAbsent⟩, absentFormless⟩ := layered
    have each : ∀ kind ∈ [present, absent], (node .root kind span parts).Stratified := by
      intro kind member
      have formless : kind.formless = true ∧ looks.all kind.allows = true := by
        simp only [List.mem_cons, List.not_mem_nil, or_false] at member
        rcases member with rfl | rfl
        · exact ⟨presentFormless, ofPresent⟩
        · exact ⟨absentFormless, ofAbsent⟩
      have plain : (Assembly.node kind).Forms looks (parts.map (·.role)) := .inl formless.1
      obtain ⟨form, other⟩ := form_of_node plain
      exact stratified_of_allows span seen formless.2 form (fun same => absurd same other) inner
    have chosen : (if parts.any (·.role == role) then present else absent) ∈ [present, absent] := by
      split <;> simp
    exact ⟨each _ chosen, _, chosen, rfl⟩
  | indexList => exact stratified_indexList span layered forms seen inner
  | allocation => exact stratified_allocation span layered seen inner

end Tree

end Oberon
