import Oberon.Proofs.Bonds
import Oberon.Proofs.Progress
import Oberon.Proofs.Stratification

/-!
# Coherence

Whatever rule is parsed, the parts of every construct in its tree go together
(`Rule.parse_coherent`).

A condition is an automaton that reads the parts of a construct.  `Production.trails` computes the
states in which an automaton can end after the parts that a production yields, now with the symbols
of tokens, and with whether a construct has parts (`Production.shapes`): it has if the symbols at
which it can begin make it read a token.  No derivation leads anywhere else
(`Production.Reads.mem_trails`), so that the conditions of an assembly can be checked before there
are any trees (`Production.coherent`).
-/

namespace Oberon

namespace Yield

/-- The parts that a production yields, from outside. -/
def glances : {yield : Yield} → yield.Output → List Glance
  | construct, _ => []
  | parts, trees => trees.map Tree.glance

end Yield

namespace Tree

/-- The glances at the parts of a record that takes an `END` back: only the `END` is new. -/
theorem glances_reclaimEnd?
    {parts reclaimed : List Tree}
    (handed : reclaimEnd? parts = some reclaimed) :
    ∃ symbol, reclaimed.map glance = parts.map glance ++ [(.ending, .token symbol)] := by
  obtain ⟨before, role, span, names, colon, type, object, ending, rfl, released, rfl⟩ :=
    reclaimEnd?_eq_some handed
  obtain ⟨_, _, _, _, last, rfl, rfl, rfl⟩ := releaseEnd?_eq_some released
  exact ⟨last.symbol, by simp [glance, shape, Tree.role]⟩

/-- An object type of which only the word `OBJECT` is left. -/
theorem coherent_object
    (role : Role)
    (word : Lexeme) :
    (node role .objectType word.token.span [leaf .keyword word]).Coherent := by
  refine .node _ _ ?_ ?_
  · simp only [Kind.bonds, List.forall_mem_cons, List.not_mem_nil, false_implies, implies_true,
      and_true, Condition.holds_iff]
    exact ⟨rfl, rfl, rfl⟩
  · intro part member
    obtain rfl := List.mem_singleton.mp member
    exact .leaf _ _

/-- A record that takes an `END` back leaves a generic object type behind. -/
theorem coherent_reclaimEnd?
    {parts reclaimed : List Tree}
    (handed : reclaimEnd? parts = some reclaimed)
    (inner : ∀ part ∈ parts, part.Coherent) :
    ∀ part ∈ reclaimed, part.Coherent := by
  obtain ⟨before, role, span, names, colon, type, object, ending, rfl, released, rfl⟩ :=
    reclaimEnd?_eq_some handed
  obtain ⟨place, _, _, word, last, rfl, rfl, rfl⟩ := releaseEnd?_eq_some released
  simp only [List.forall_mem_append, List.forall_mem_cons] at inner ⊢
  obtain ⟨front, field, -⟩ := inner
  refine ⟨front, ?_, .missing _, .leaf _ _, nofun⟩
  cases field with
  | node _ _ _ below =>
    simp only [List.forall_mem_cons] at below
    obtain ⟨first, second, -⟩ := below
    refine .node _ _ nofun ?_
    simp only [List.forall_mem_cons]
    exact ⟨first, second, coherent_object place word, nofun⟩

end Tree

namespace Production

/-- The shapes of a construct whose first symbol is in a set. -/
def shapes (construct : Production .construct) (ahead : SymbolSet) : List Shape :=
  if ahead \ construct.moving = ∅ then [.construct true]
  else [.construct true, .construct false]

section Trails

variable {σ : Type} [DecidableEq σ] (step : σ → Glance → σ)

/-- The states after one more part, which is one of several. -/
def follow (states : List σ) (parts : List Glance) : List σ :=
  (states.flatMap fun state => parts.map (step state)).eraseDups

/-- The states after the parts of a production whose first symbol is in a set, from some states
before them. -/
def trails :
    {yield : Yield} → Production yield → (ahead : SymbolSet) → List σ → Option (List σ)
  | _, .empty, _, states => some states
  | _, .token role symbols _, _, states =>
    some (follow step states (symbols.map fun symbol => (role, .token symbol)))
  | _, .gap role, _, states => some (follow step states [(role, .gap)])
  | _, .fail _, _, _ => some []
  | _, .seq first second, ahead, states =>
    (trails first ahead states).bind fun states => trails second .full states
  | _, .branch starts first second, _, states =>
    (trails first (.of starts) states).bind fun left =>
      (trails second .full states).map fun right => (left ++ right).eraseDups
  | _, .many starts item, _, states =>
    settle (fun states => trails item (.of starts) states) 4 states
  | _, .tail separator role stops exitRole exit item, _, states =>
    (settle (fun states => trails item .full (follow step states [(role, .token separator)])) 4
        states).bind fun states =>
      if stops = [] then some states
      else
        (trails exit .full (follow step states [(exitRole, .token separator)])).map fun last =>
          (states ++ last).eraseDups
  | _, .part role construct, ahead, states =>
    some (follow step states ((construct.shapes ahead).map fun shape => (role, shape)))
  | _, .assemble _ _, _, states => some states
  | _, .deeper _, _, states => some states
  | _, .reclaim body closing, _, states =>
    (trails body .full states).bind fun states =>
      (trails closing .full states).map fun last =>
        -- whichever token is taken back
        (follow step states (Symbol.all.map fun symbol => (.ending, .token symbol)) ++
          last).eraseDups

variable {step}

theorem mem_follow
    {states : List σ}
    {parts : List Glance}
    {state : σ}
    {part : Glance}
    (member : state ∈ states)
    (among : part ∈ parts) :
    step state part ∈ follow step states parts :=
  List.mem_eraseDups.mpr (List.mem_flatMap.mpr ⟨state, member, List.mem_map_of_mem among⟩)

end Trails

/-- A construct has parts if it has read a token. -/
theorem Reads.shape_mem
    {budget : Nat}
    {construct : Production .construct}
    {cursor after : Cursor}
    {tree : Tree}
    (h : Reads budget construct cursor tree after)
    (layered : construct.layered = true)
    {ahead : SymbolSet}
    (chosen : cursor.symbol ∈ ahead) :
    tree.shape ∈ construct.shapes ahead := by
  obtain ⟨look, -⟩ := h.stratified layered tree List.mem_cons_self
  obtain ⟨kind, same⟩ := exists_of_mem_looks _ _ look
  have found : tree.kind? = some kind := by
    rw [← Tree.kind?_look, same]
    rfl
  cases tree with
  | leaf _ _ => cases found
  | missing _ => cases found
  | node role kind span children =>
    rw [shapes]
    split
    · rename_i always
      have moved := h.moved (SymbolSet.mem_of_sdiff_eq_empty always chosen)
      obtain ⟨front, passed, tokens⟩ := h.passes
      cases children with
      | nil =>
        obtain rfl : front = [] := List.map_eq_nil_iff.mp tokens.symm
        rw [passed.eq_of_nil] at moved
        exact absurd moved (Nat.lt_irrefl _)
      | cons => exact List.mem_singleton_self _
    · cases children with
      | nil => exact List.mem_cons_of_mem _ (List.mem_singleton_self _)
      | cons => exact List.mem_cons_self

/-- A derivation leads from a state to one of those that were computed. -/
theorem Reads.mem_trails
    {σ : Type}
    [DecidableEq σ]
    {step : σ → Glance → σ}
    {budget : Nat}
    {yield : Yield}
    {production : Production yield}
    {cursor after : Cursor}
    {output : yield.Output}
    (h : Reads budget production cursor output after)
    (layered : production.layered = true)
    {ahead : SymbolSet}
    (chosen : cursor.symbol ∈ ahead)
    {states ends : List σ}
    (found : production.trails step ahead states = some ends)
    {state : σ}
    (member : state ∈ states) :
    (Yield.glances output).foldl step state ∈ ends := by
  induction h generalizing ahead states ends state with
  | empty =>
    cases found
    exact member
  | token fits =>
    cases found
    exact mem_follow member (List.mem_map_of_mem fits)
  | gap =>
    cases found
    exact mem_follow member List.mem_cons_self
  | seq _ _ left right =>
    obtain ⟨before, behind⟩ := Bool.and_eq_true_iff.mp layered
    obtain ⟨between, first, second⟩ := Option.bind_eq_some_iff.mp found
    have middle := left before chosen first member
    simp only [Yield.glances, List.map_append, List.foldl_append] at middle right ⊢
    exact right behind SymbolSet.mem_full second middle
  | first starts _ ih =>
    obtain ⟨lefts, first, others⟩ := Option.bind_eq_some_iff.mp found
    obtain ⟨rights, second, rfl⟩ := Option.map_eq_some_iff.mp others
    refine List.mem_eraseDups.mpr (List.mem_append_left _ ?_)
    exact ih (Bool.and_eq_true_iff.mp layered).1 (SymbolSet.mem_of.mpr starts) first member
  | second _ _ ih =>
    obtain ⟨lefts, first, others⟩ := Option.bind_eq_some_iff.mp found
    obtain ⟨rights, second, rfl⟩ := Option.map_eq_some_iff.mp others
    refine List.mem_eraseDups.mpr (List.mem_append_right _ ?_)
    exact ih (Bool.and_eq_true_iff.mp layered).2 SymbolSet.mem_full second member
  | manyStop => exact (settle_eq_some found).1 state member
  | manyStep starts _ _ _ head others =>
    obtain ⟨contained, more, grown, settled⟩ := settle_eq_some found
    have middle := head layered (SymbolSet.mem_of.mpr starts) grown (contained state member)
    simp only [Yield.glances, List.map_append, List.foldl_append] at middle others ⊢
    exact others layered SymbolSet.mem_full (settle_of_settled _ grown settled 3)
      (settled _ middle)
  | manyStall starts _ _ ih =>
    obtain ⟨contained, more, grown, settled⟩ := settle_eq_some found
    exact settled _ (ih layered (SymbolSet.mem_of.mpr starts) grown (contained state member))
  | tailStop =>
    obtain ⟨loops, loop, last⟩ := Option.bind_eq_some_iff.mp found
    have stays := (settle_eq_some loop).1 state member
    split at last
    · cases last
      exact stays
    · obtain ⟨exits, exited, rfl⟩ := Option.map_eq_some_iff.mp last
      exact List.mem_eraseDups.mpr (List.mem_append_left _ stays)
  | @tailStep _ role _ _ _ item lexeme _ _ _ _ _ _ _ _ _ _ head others =>
    obtain ⟨ofExit, ofItem⟩ := Bool.and_eq_true_iff.mp layered
    obtain ⟨loops, loop, last⟩ := Option.bind_eq_some_iff.mp found
    obtain ⟨contained, more, grown, settled⟩ := settle_eq_some loop
    have again := settle_of_settled
      (fun states => trails step item .full (follow step states [(role, .token lexeme.symbol)]))
      grown settled 3
    have middle := head ofItem SymbolSet.mem_full grown
      (mem_follow (contained state member) List.mem_cons_self)
    simp only [Yield.glances, List.map_append, List.map_cons, List.foldl_append, List.foldl_cons]
      at middle others ⊢
    refine others layered SymbolSet.mem_full ?_ (settled _ middle)
    rw [trails, again]
    exact last
  | @tailExit _ _ exitRole stops _ _ _ _ _ _ _ _ several _ ih =>
    obtain ⟨ofExit, ofItem⟩ := Bool.and_eq_true_iff.mp layered
    obtain ⟨loops, loop, last⟩ := Option.bind_eq_some_iff.mp found
    rw [if_neg (List.ne_nil_of_mem several)] at last
    obtain ⟨exits, exited, rfl⟩ := Option.map_eq_some_iff.mp last
    refine List.mem_eraseDups.mpr (List.mem_append_right _ ?_)
    exact ih ofExit SymbolSet.mem_full exited
      (mem_follow ((settle_eq_some loop).1 state member) List.mem_cons_self)
  | @part _ role _ _ _ tree inner _ =>
    cases found
    have shape := inner.shape_mem layered chosen
    simp only [Yield.glances, List.map_cons, List.map_nil, List.foldl_cons, List.foldl_nil,
      Tree.glance_withRole]
    exact mem_follow member (List.mem_map_of_mem shape)
  | assemble =>
    cases found
    exact member
  | deeper _ =>
    cases found
    exact member
  | reclaimed _ _ handed ih =>
    obtain ⟨between, body, others⟩ := Option.bind_eq_some_iff.mp found
    obtain ⟨lasts, closing, rfl⟩ := Option.map_eq_some_iff.mp others
    have middle := ih (Bool.and_eq_true_iff.mp layered).1 SymbolSet.mem_full body member
    obtain ⟨symbol, same⟩ := Tree.glances_reclaimEnd? handed
    refine List.mem_eraseDups.mpr (List.mem_append_left _ ?_)
    simp only [Yield.glances, same, List.foldl_append] at middle ⊢
    exact mem_follow middle (List.mem_map_of_mem symbol.mem_all)
  | unclaimed _ _ _ inner last =>
    obtain ⟨ofBody, ofClosing⟩ := Bool.and_eq_true_iff.mp layered
    obtain ⟨between, body, others⟩ := Option.bind_eq_some_iff.mp found
    obtain ⟨lasts, closing, rfl⟩ := Option.map_eq_some_iff.mp others
    have middle := inner ofBody SymbolSet.mem_full body member
    refine List.mem_eraseDups.mpr (List.mem_append_right _ ?_)
    simp only [Yield.glances, List.map_append, List.foldl_append] at middle last ⊢
    exact last ofClosing SymbolSet.mem_full closing middle

/-- Checks that the parts of an index list come in order. -/
def orders (assembly : Assembly) (parts : Production .parts) : Bool :=
  assembly != .indexList ||
    (parts.leads (Order.step assembly.order.key) [assembly.order.track]).any fun ends =>
      ends.all Order.fits

theorem Reads.admits_of_orders
    {budget : Nat}
    {assembly : Assembly}
    {parts : Production .parts}
    {cursor after : Cursor}
    {trees : List Tree}
    (h : Reads budget parts cursor trees after)
    (orders : parts.orders assembly = true)
    (list : assembly = .indexList) :
    assembly.order.Admits (trees.map (·.role)) := by
  have checked := (Bool.or_eq_true_iff.mp orders).resolve_left (by simp [list])
  obtain ⟨ends, led, fits⟩ := (Option.any_eq_true _ _).mp checked
  exact Order.admits_of_fits
    (List.all_eq_true.mp fits _ (h.mem_leads led (List.mem_singleton_self _)))

/-- Checks that what an assembly asks of its parts holds of those that a production yields. -/
def binds (assembly : Assembly) (parts : Production .parts) : Bool :=
  assembly.bonds.all fun bond =>
    (parts.trails (fun rest part => rest.after part) .full [bond]).any fun ends =>
      ends.all Condition.atEnd

theorem Reads.holds_of_binds
    {budget : Nat}
    {assembly : Assembly}
    {parts : Production .parts}
    {cursor after : Cursor}
    {trees : List Tree}
    (h : Reads budget parts cursor trees after)
    (layered : parts.layered = true)
    (binds : parts.binds assembly = true) :
    ∀ bond ∈ assembly.bonds, bond.Holds (trees.map Tree.glance) := by
  intro bond member
  obtain ⟨ends, led, met⟩ := (Option.any_eq_true _ _).mp (List.all_eq_true.mp binds bond member)
  rw [Condition.holds_iff]
  exact List.all_eq_true.mp met _
    (h.mem_trails layered SymbolSet.mem_full led (List.mem_singleton_self _))

/-- Checks that the bonds of all constructs hold. -/
def coherent : {yield : Yield} → Production yield → Bool
  | _, .empty => true
  | _, .token _ _ _ => true
  | _, .gap _ => true
  | _, .fail _ => true
  | _, .seq first second => first.coherent && second.coherent
  | _, .branch _ first second => first.coherent && second.coherent
  | _, .many _ item => item.coherent
  | _, .tail _ _ _ _ exit item => exit.coherent && item.coherent
  | _, .part _ construct => construct.coherent
  | _, .assemble assembly parts =>
    parts.coherent && parts.layered && parts.orders assembly && parts.binds assembly
  | _, .deeper _ => true
  | _, .reclaim body closing => body.coherent && closing.coherent

end Production

/-- The bonds of the constructs of every level and every rule hold. -/
theorem coherent_production :
    (∀ level : Level, level.production.coherent = true) ∧
      ∀ rule : Rule, rule.production.coherent = true := by
  -- one check for all of them, which have most of their productions in common
  have every :
      (∀ level ∈ Level.all, level.production.coherent = true) ∧
      ∀ rule ∈ Rule.all, rule.production.coherent = true := by
    decide +kernel
  exact ⟨fun level => every.1 level level.mem_all, fun rule => every.2 rule rule.mem_all⟩

/-- What a production that is checked yields is coherent. -/
theorem Production.Reads.coherent
    {budget : Nat}
    {yield : Yield}
    {production : Production yield}
    {cursor after : Cursor}
    {output : yield.Output}
    (h : Reads budget production cursor output after)
    (checked : production.coherent = true) :
    ∀ tree ∈ Yield.trees output, tree.Coherent := by
  induction h with
  | empty => nofun
  | token => exact List.forall_mem_singleton.mpr (.leaf _ _)
  | gap => exact List.forall_mem_singleton.mpr (.missing _)
  | seq _ _ left right =>
    obtain ⟨first, second⟩ := Bool.and_eq_true_iff.mp checked
    exact List.forall_mem_append.mpr ⟨left first, right second⟩
  | first _ _ ih => exact ih (Bool.and_eq_true_iff.mp checked).1
  | second _ _ ih => exact ih (Bool.and_eq_true_iff.mp checked).2
  | manyStop => nofun
  | manyStep _ _ _ _ head others =>
    exact List.forall_mem_append.mpr ⟨head checked, others checked⟩
  | manyStall _ _ _ ih => exact ih checked
  | tailStop => nofun
  | tailStep _ _ _ head others =>
    obtain ⟨-, item⟩ := Bool.and_eq_true_iff.mp checked
    refine List.forall_mem_cons.mpr ⟨.leaf _ _, ?_⟩
    exact List.forall_mem_append.mpr ⟨head item, others checked⟩
  | tailExit _ _ ih =>
    exact List.forall_mem_cons.mpr ⟨.leaf _ _, ih (Bool.and_eq_true_iff.mp checked).1⟩
  | part _ ih =>
    refine List.forall_mem_singleton.mpr (Tree.coherent_withRole _ ?_)
    exact ih checked _ List.mem_cons_self
  | assemble inner ih =>
    simp only [Production.coherent, Bool.and_eq_true] at checked
    obtain ⟨⟨⟨below, layered⟩, orders⟩, binds⟩ := checked
    refine List.forall_mem_singleton.mpr ?_
    exact Tree.coherent_assemble _ (inner.admits_of_orders orders)
      (inner.holds_of_binds layered binds) (ih below)
  | @deeper _ level _ _ _ _ ih => exact ih (coherent_production.1 level)
  | reclaimed _ _ handed ih =>
    exact Tree.coherent_reclaimEnd? handed (ih (Bool.and_eq_true_iff.mp checked).1)
  | unclaimed _ _ _ inner last =>
    obtain ⟨body, closing⟩ := Bool.and_eq_true_iff.mp checked
    exact List.forall_mem_append.mpr ⟨inner body, last closing⟩

/-- Optional parts and lists are consistent everywhere.  Whatever rule is parsed, the bonds of all
constructs in its tree hold. -/
theorem Rule.parse_coherent
    (rule : Rule)
    (cursor after : Cursor)
    (tree : Tree)
    (parsed : rule.parse cursor = .ok tree after) :
    tree.Coherent := by
  have derived := Production.run_eq_ok_iff.mp parsed
  exact derived.coherent (coherent_production.2 rule) tree List.mem_cons_self

/-- The theorem applies to a record whose last field is a generic object, which gives its `END` back
to the record. -/
theorem Rule.parse_coherent_record :
    ∃ tree after,
      Rule.recordType.parse
          (.ofStream (.ofSource (.ofText "M" "RECORD (B) a, b: T; o: OBJECT END"))) =
        .ok tree after ∧
        (tree.part? .ending).isSome = true ∧ tree.Coherent := by
  have ending : ((Rule.recordType.parse.value?
      (.ofStream (.ofSource (.ofText "M" "RECORD (B) a, b: T; o: OBJECT END")))).bind
        (·.part? .ending)).isSome = true := by
    decide +kernel
  obtain ⟨last, found⟩ := Option.isSome_iff_exists.mp ending
  obtain ⟨tree, found, same⟩ := Option.bind_eq_some_iff.mp found
  obtain ⟨after, parsed⟩ := Parser.value?_eq_some_iff.mp found
  refine ⟨tree, after, parsed, ?_, Rule.parse_coherent _ _ _ _ parsed⟩
  rw [same]
  rfl

end Oberon
