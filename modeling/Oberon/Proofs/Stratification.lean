import Oberon.Proofs.Strata

/-!
# Precedence and associativity

Whatever rule is parsed, its tree is stratified (`Rule.parse_stratified`).

The proof looks at productions only.  `Production.looks` computes what the parts that a production
yields can look like, with a fixed answer for what stands one level deeper (`Level.kinds`), and
`Production.layered` checks each construct on the way.  All productions of the grammar pass, and
what passes yields stratified trees (`Production.Reads.stratified`).
-/

namespace Oberon

namespace Level

/-- The kinds of the constructs of a level. -/
def kinds : Level → List Kind
  | factor =>
    [.signed, .designation, .literal, .set, .arrayValue, .atom, .inquiry, .allocation, .parenthesis,
      .selectors, .flags]
  | statement =>
    [.emptyStatement, .ifStatement, .whileStatement, .repeatStatement, .forStatement,
      .loopStatement, .caseStatement, .withStatement, .inlineAssembler, .statementBlock,
      .exitStatement, .returnStatement, .awaitStatement, .ignoreStatement, .simpleStatement]
  | type =>
    [.mathArrayType, .arrayType, .recordType, .pointerType, .procedureType, .objectType,
      .enumeration, .cellType, .portType, .builtinType, .qualifiedIdentifier]
  | declarations => [.declarations]

end Level

namespace Production

/-- What tokens in a role look like. -/
def tokenLooks (role : Role) (symbols : List Symbol) : List (Role × Look) :=
  if role = .operator then symbols.map fun symbol => (role, .operator symbol)
  else [(role, .other)]

/-- What the parts that a production yields look like. -/
def looks : {yield : Yield} → Production yield → List (Role × Look)
  | _, .empty => []
  | _, .token role symbols _ => tokenLooks role symbols
  | _, .gap role => [(role, .other)]
  | _, .fail _ => []
  | _, .seq first second => first.looks ++ second.looks
  | _, .branch _ first second => first.looks ++ second.looks
  | _, .many _ item => item.looks
  | _, .tail separator role _ exitRole exit item =>
    tokenLooks role [separator] ++ (tokenLooks exitRole [separator] ++ (exit.looks ++ item.looks))
  | _, .part role construct => construct.looks.map fun look => (role, look.2)
  | _, .assemble assembly parts =>
    (assembly.kinds parts.looks).eraseDups.map fun kind => (.root, .construct kind)
  | _, .deeper level => level.kinds.map fun kind => (.root, .construct kind)
  | _, .reclaim body closing => body.looks ++ (.ending, .other) :: closing.looks

/-- Checks that all constructs keep to the layers. -/
def layered : {yield : Yield} → Production yield → Bool
  | _, .empty => true
  | _, .token _ _ _ => true
  | _, .gap _ => true
  | _, .fail _ => true
  | _, .seq first second => first.layered && second.layered
  | _, .branch _ first second => first.layered && second.layered
  | _, .many _ item => item.layered
  | _, .tail _ _ _ _ exit item => exit.layered && item.layered
  | _, .part _ construct => construct.layered
  | _, .assemble assembly parts =>
    parts.layered && assembly.layered parts.looks &&
      (assembly.formless ||
        (parts.leads (Role.join assembly.joint) [[]]).any fun ends =>
          ends.all (assembly.formed parts.looks))
  | _, .deeper _ => true
  | _, .reclaim body closing => body.layered && closing.layered

end Production

theorem Level.layered_production (level : Level) : level.production.layered = true := by
  cases level <;> decide +kernel

theorem Level.looks_production
    (level : Level) :
    ∀ look ∈ level.production.looks, look ∈ (Production.deeper level).looks := by
  cases level <;> decide +kernel

theorem Rule.layered_production (rule : Rule) : rule.production.layered = true := by
  have every : ∀ rule ∈ all, rule.production.layered = true := by decide +kernel
  exact every rule rule.mem_all

/-- Two rules only yield lists of expressions. -/
theorem Rule.lists_production
    (rule : Rule) :
    ((.root, .construct .expressionList) ∈ rule.production.looks →
      rule = .expressionList ∨ rule = .indexList) ∧
    ((.root, .construct .indexList) ∈ rule.production.looks → rule = .indexList) := by
  have every : ∀ rule ∈ all,
      ((.root, .construct .expressionList) ∈ rule.production.looks →
        rule = .expressionList ∨ rule = .indexList) ∧
      ((.root, .construct .indexList) ∈ rule.production.looks → rule = .indexList) := by
    decide +kernel
  exact every rule rule.mem_all

/-- Constructs look like constructs. -/
theorem Production.exists_of_mem_looks :
    ∀ (production : Production .construct) (look : Role × Look), look ∈ production.looks →
      ∃ kind, look = (.root, .construct kind)
  | .fail _, _, member => by cases member
  | .branch _ first second, look, member => by
    rcases List.mem_append.mp member with left | right
    · exact exists_of_mem_looks first look left
    · exact exists_of_mem_looks second look right
  | .assemble _ _, _, member => by
    obtain ⟨kind, -, rfl⟩ := List.mem_map.mp member
    exact ⟨kind, rfl⟩
  | .deeper _, _, member => by
    obtain ⟨kind, -, rfl⟩ := List.mem_map.mp member
    exact ⟨kind, rfl⟩

theorem Tree.look_leaf_mem
    {role : Role}
    {symbols : List Symbol}
    {lexeme : Lexeme}
    (fits : lexeme.symbol ∈ symbols) :
    (leaf role lexeme).look ∈ Production.tokenLooks role symbols := by
  rw [Production.tokenLooks]
  split
  · rename_i operator
    subst operator
    exact List.mem_map_of_mem fits
  · rename_i other
    rw [look]
    · exact List.mem_cons_self
    · exact other

/-- An object type of which only the word `OBJECT` is left. -/
theorem Tree.stratified_object
    (role : Role)
    (word : Lexeme) :
    (node role .objectType word.token.span [leaf .keyword word]).Stratified := by
  refine .node _ _ (Kind.admits_of_formless rfl ?_) ?_
  · intro part member
    obtain rfl := List.mem_singleton.mp member
    rfl
  · intro part member
    obtain rfl := List.mem_singleton.mp member
    exact .leaf _ _

/-- A record that takes an `END` back keeps to the layers. -/
theorem Tree.stratified_reclaimEnd?
    {looks : List (Role × Look)}
    {parts reclaimed : List Tree}
    (handed : reclaimEnd? parts = some reclaimed)
    (inner : ∀ part ∈ parts, part.look ∈ looks ∧ part.Stratified) :
    ∀ part ∈ reclaimed, (part.look ∈ looks ∨ part.look = (.ending, .other)) ∧ part.Stratified := by
  obtain ⟨before, role, span, names, colon, type, object, ending, rfl, released, rfl⟩ :=
    reclaimEnd?_eq_some handed
  obtain ⟨place, _, _, word, last, rfl, rfl, rfl⟩ := releaseEnd?_eq_some released
  intro part member
  rw [List.mem_append] at member
  simp only [List.mem_cons, List.not_mem_nil, or_false] at member
  rcases member with front | rfl | rfl | rfl
  · exact (inner part (List.mem_append_left _ front)).imp_left .inl
  · -- the type of the last field is an object type as before
    obtain ⟨look, field⟩ := inner _ (List.mem_append_right _ List.mem_cons_self)
    refine ⟨.inl look, ?_⟩
    cases field with
    | node _ _ admits below =>
      refine .node _ _ (Kind.admits_of_formless rfl ?_) ?_
      · intro part member
        simp only [List.mem_cons, List.not_mem_nil, or_false] at member
        rcases member with rfl | rfl | rfl
        · exact admits.allows (by simp)
        · exact admits.allows (by simp)
        · have type := admits.allows
            (List.mem_cons_of_mem names (List.mem_cons_of_mem colon List.mem_cons_self))
          exact type
      · intro part member
        simp only [List.mem_cons, List.not_mem_nil, or_false] at member
        rcases member with rfl | rfl | rfl
        · exact below _ (by simp)
        · exact below _ (by simp)
        · exact stratified_object place word
  · exact (inner _ (by simp)).imp_left .inl
  · exact ⟨.inr rfl, .leaf _ _⟩

/-- The parts of a production look as computed, and are stratified if it keeps to the layers. -/
theorem Production.Reads.stratified
    {budget : Nat}
    {yield : Yield}
    {production : Production yield}
    {cursor after : Cursor}
    {output : yield.Output}
    (h : Reads budget production cursor output after)
    (layered : production.layered = true) :
    ∀ tree ∈ Yield.trees output, tree.look ∈ production.looks ∧ tree.Stratified := by
  induction h with
  | empty => nofun
  | token fits =>
    intro tree member
    obtain rfl := List.mem_singleton.mp member
    exact ⟨Tree.look_leaf_mem fits, .leaf _ _⟩
  | gap =>
    intro tree member
    obtain rfl := List.mem_singleton.mp member
    exact ⟨List.mem_cons_self, .missing _⟩
  | seq _ _ left right =>
    obtain ⟨first, second⟩ := Bool.and_eq_true_iff.mp layered
    intro tree member
    rcases List.mem_append.mp member with front | back
    · exact (left first tree front).imp_left (List.mem_append_left _)
    · exact (right second tree back).imp_left (List.mem_append_right _)
  | first _ _ ih =>
    intro tree member
    exact (ih (Bool.and_eq_true_iff.mp layered).1 tree member).imp_left (List.mem_append_left _)
  | second _ _ ih =>
    intro tree member
    exact (ih (Bool.and_eq_true_iff.mp layered).2 tree member).imp_left (List.mem_append_right _)
  | manyStop => nofun
  | manyStep _ _ _ _ head others =>
    intro tree member
    rcases List.mem_append.mp member with front | back
    · exact head layered tree front
    · exact others layered tree back
  | manyStall _ _ _ ih => exact ih layered
  | tailStop => nofun
  | @tailStep _ role _ _ _ _ lexeme _ _ _ _ _ _ _ _ _ _ head others =>
    obtain ⟨exit, item⟩ := Bool.and_eq_true_iff.mp layered
    intro tree member
    rcases List.mem_cons.mp member with rfl | member
    · refine ⟨List.mem_append_left _ ?_, .leaf _ _⟩
      exact Tree.look_leaf_mem (List.mem_singleton_self lexeme.symbol)
    · rcases List.mem_append.mp member with front | back
      · refine (head item tree front).imp_left fun among => ?_
        exact List.mem_append_right _ (List.mem_append_right _ (List.mem_append_right _ among))
      · exact others layered tree back
  | @tailExit _ _ exitRole _ _ _ lexeme _ _ _ _ _ _ _ ih =>
    obtain ⟨exit, item⟩ := Bool.and_eq_true_iff.mp layered
    intro tree member
    rcases List.mem_cons.mp member with rfl | back
    · refine ⟨List.mem_append_right _ (List.mem_append_left _ ?_), .leaf _ _⟩
      exact Tree.look_leaf_mem (List.mem_singleton_self lexeme.symbol)
    · refine (ih exit tree back).imp_left fun among => ?_
      exact List.mem_append_right _ (List.mem_append_right _ (List.mem_append_left _ among))
  | @part _ role construct _ _ tree _ ih =>
    intro part member
    obtain rfl := List.mem_singleton.mp member
    obtain ⟨among, below⟩ := ih layered tree List.mem_cons_self
    obtain ⟨kind, look⟩ := exists_of_mem_looks construct tree.look among
    refine ⟨List.mem_map.mpr ⟨tree.look, among, ?_⟩, Tree.stratified_withRole role below⟩
    rw [Tree.look_withRole look, look]
  | @assemble _ assembly parts _ _ trees inner ih =>
    simp only [Production.layered, Bool.and_eq_true, Bool.or_eq_true] at layered
    obtain ⟨⟨below, each⟩, together⟩ := layered
    have forms : assembly.Forms parts.looks (trees.map (·.role)) := by
      rcases together with formless | checked
      · exact .inl formless
      · obtain ⟨ends, led, fits⟩ := (Option.any_eq_true _ _).mp checked
        exact .inr (List.all_eq_true.mp fits _ (inner.mem_leads led List.mem_cons_self))
    intro tree member
    obtain rfl := List.mem_singleton.mp member
    obtain ⟨stratified, found, among, look⟩ := Tree.stratified_assemble _ each forms
      (fun part member => (ih below part member).1) (fun part member => (ih below part member).2)
    refine ⟨?_, stratified⟩
    rw [look]
    exact List.mem_map_of_mem (List.mem_eraseDups.mpr among)
  | @deeper _ level _ _ _ _ ih =>
    intro tree member
    obtain ⟨look, below⟩ := ih level.layered_production tree member
    exact ⟨level.looks_production _ look, below⟩
  | reclaimed _ _ handed ih =>
    intro tree member
    obtain ⟨look, below⟩ :=
      Tree.stratified_reclaimEnd? handed (ih (Bool.and_eq_true_iff.mp layered).1) tree member
    refine ⟨?_, below⟩
    rcases look with among | ending
    · exact List.mem_append_left _ among
    · rw [ending]
      exact List.mem_append_right _ List.mem_cons_self
  | unclaimed _ _ _ inner last =>
    obtain ⟨body, closing⟩ := Bool.and_eq_true_iff.mp layered
    intro tree member
    rcases List.mem_append.mp member with front | back
    · exact (inner body tree front).imp_left (List.mem_append_left _)
    · refine (last closing tree back).imp_left fun among => ?_
      exact List.mem_append_right _ (List.mem_cons_of_mem _ among)

/-- Precedence and associativity hold everywhere.  Whatever rule is parsed, its tree is stratified,
and the tree as a whole is a list of expressions only if the rule is one for such lists. -/
theorem Rule.parse_stratified
    (rule : Rule)
    (cursor after : Cursor)
    (tree : Tree)
    (parsed : rule.parse cursor = .ok tree after) :
    tree.Stratified ∧
      (tree.kind? = some .expressionList → rule = .expressionList ∨ rule = .indexList) ∧
      (tree.kind? = some .indexList → rule = .indexList) := by
  have derived := Production.run_eq_ok_iff.mp parsed
  obtain ⟨look, stratified⟩ := derived.stratified rule.layered_production tree List.mem_cons_self
  obtain ⟨kind, same⟩ := Production.exists_of_mem_looks _ _ look
  have found : tree.kind? = some kind := by
    rw [← Tree.kind?_look, same]
    rfl
  rw [same] at look
  refine ⟨stratified, ?_, ?_⟩
  · intro list
    obtain rfl := Option.some.inj (found.symm.trans list)
    exact rule.lists_production.1 look
  · intro list
    obtain rfl := Option.some.inj (found.symm.trans list)
    exact rule.lists_production.2 look

/-- The theorem applies to an expression with operators of three layers. -/
theorem Rule.parse_stratified_relation :
    ∃ tree after,
      Rule.expression.parse (.ofStream (.ofSource (.ofText "M" "a-b-c*d<e"))) = .ok tree after ∧
        tree.kind? = some .relation ∧ tree.Stratified := by
  have kind : (Rule.expression.parse.value? (.ofStream (.ofSource (.ofText "M" "a-b-c*d<e")))).bind
      Tree.kind? = some .relation := by
    decide +kernel
  obtain ⟨tree, found, same⟩ := Option.bind_eq_some_iff.mp kind
  obtain ⟨after, parsed⟩ := Parser.value?_eq_some_iff.mp found
  exact ⟨tree, after, parsed, same, (Rule.parse_stratified _ _ _ _ parsed).1⟩

end Oberon
