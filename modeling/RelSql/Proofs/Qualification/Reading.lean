import RelSql.Proofs.Block.Joins
import RelSql.Proofs.Lexical.Indentation
import RelSql.Proofs.Statement.Query
import RelSql.Render.Query

/-!
# Columns that are written

The text of a block holds the texts of its values, and these hold the texts of columns, outside of
the subqueries of the block.  A block that is written has a text for each of these columns.
-/

namespace RelSql

open Text

/-- The function that a step defines on a handle, from its values on smaller handles. -/
theorem NodeId.recurse_eq_below {α : Type} (bottom : NodeId → α)
    (step : (NodeId → α) → NodeId → α) (id : NodeId) :
  recurse bottom step id
    = step (fun c => if c.index < id.index then recurse bottom step c else bottom c) id
  := by
  conv_lhs => rw [recurse]
  congr 1
  funext c
  split
  case isTrue h => exact valueIn_valuesBelow bottom step id.index c h
  case isFalse h => rw [valueIn, if_neg h]

namespace Render.View

/-- The values whose texts are parts of the text of a value that no subquery stands for. -/
def plainParts (v : View) (id : NodeId) : List NodeId :=
  let operand := v.graph.unaliased
  match v.graph.node id with
  | .named arg _ => [arg]
  | .unary _ arg => [operand arg]
  | .binary op l r =>
    match v.graph.node r with
    | .interval _ _ =>
      if op = .add ∨ op = .sub then [l]
      else if op = .pow then [l, r]
      else [operand l, operand r]
    | _ => if op = .pow then [l, r] else [operand l, operand r]
  | .call _ arguments => arguments
  | .cast arg _ => [arg]
  | .extract arg _ => [arg]
  | .case base whens default =>
    whens.flatMap (fun w => [w.1, w.2]) ++ base.toList ++ default.toList
  | .between arg low high => [operand arg, low, high]
  | .contains arg (.list values) _ => operand arg :: values
  | .reduction _ arg => [arg]
  | _ => []

/-- The values whose texts are parts of the text of a value: none if it is a subquery, and the
tested value if it is membership in one. -/
def parts (v : View) (id : NodeId) : List NodeId :=
  match nestedFor? v.nested id with
  | none => v.plainParts id
  | some subquery =>
    match subquery.kind with
    | .scalar | .exists => []
    | .membership =>
      match v.graph.node id with
      | .contains arg _ _ => [v.graph.unaliased arg]
      | _ => v.plainParts id
    | .table => v.plainParts id

/-- Whether a value is written as a subquery. -/
def isSubquery (v : View) (id : NodeId) : Bool :=
  (nestedFor? v.nested id).any fun s => s.kind = .scalar ∨ s.kind = .exists

/-- The text of a value holds that of a column of a table. -/
inductive Writes (v : View) : NodeId → NodeId → String → Prop where
  | column {id t : NodeId} {name : String} (hplain : v.isSubquery id = false)
    (hn : v.graph.node id = .column t name) : Writes v id t name
  | part {id p t : NodeId} {name : String} (hp : p ∈ v.parts id) (h : Writes v p t name) :
    Writes v id t name

variable {v : View} {shown : NodeId → Result} {id : NodeId} {text : String}

/-- The text of a value stands in a text. -/
def StandsIn (shown : NodeId → Result) (text : String) (id : NodeId) : Prop :=
  ∃ inner, shown id = .ok inner ∧ Within inner text

theorem StandsIn.within {outer : String} (h : StandsIn shown text id) (hwithin : Within text outer) :
  StandsIn shown outer id
  := by
  obtain ⟨inner, hinner, h⟩ := h
  exact ⟨inner, hinner, h.trans hwithin⟩

/-- An operand is written without its names. -/
theorem standsIn_of_operandStep (h : v.operandStep shown id = .ok text) :
  StandsIn shown text (v.graph.unaliased id)
  := by
  rw [operandStep] at h
  obtain ⟨inner, hinner, h⟩ := exists_of_bind_eq_ok h
  refine ⟨inner, hinner, ?_⟩
  split at h
  · cases h
    exact .refl _
  · split at h <;> cases h
    · exact (Within.refl inner).between _ _
    · exact .refl _

theorem standsIn_of_onOption {f : NodeId → Result} {id? : Option NodeId} {text? : Option String}
    (h : onOption f id? = .ok text?) :
  ∀ id ∈ id?.toList, ∃ inner ∈ text?, f id = .ok inner
  := by
  cases id? with
  | none => exact nofun
  | some id =>
      obtain ⟨text, htext, h⟩ := exists_of_bind_eq_ok h
      cases h
      exact List.forall_mem_singleton.mpr ⟨text, rfl, htext⟩

/-- The operands of an operator that is no addition of an interval are written. -/
theorem standsIn_of_infix {op : BinaryOp} {l r : NodeId}
    (h : (if op = .pow then do return "pow(" ++ (← shown l) ++ ", " ++ (← shown r) ++ ")"
      else do
        return (← v.operandStep shown l) ++ " " ++ symbol op ++ " " ++ (← v.operandStep shown r))
      = Except.ok text) :
  ∀ p ∈ (if op = .pow then [l, r] else [v.graph.unaliased l, v.graph.unaliased r]),
    StandsIn shown text p
  := by
  split at h
  case isTrue hpow =>
      obtain ⟨left, hleft, h⟩ := exists_of_bind_eq_ok h
      obtain ⟨right, hright, h⟩ := exists_of_bind_eq_ok h
      cases h
      rw [if_pos hpow, List.forall_mem_cons, List.forall_mem_singleton]
      exact ⟨⟨left, hleft, (((Within.refl left).right _).left _).left _ |>.left _⟩,
        right, hright, (Within.refl right).between _ _⟩
  case isFalse hpow =>
      obtain ⟨left, hleft, h⟩ := exists_of_bind_eq_ok h
      obtain ⟨right, hright, h⟩ := exists_of_bind_eq_ok h
      cases h
      rw [if_neg hpow, List.forall_mem_cons, List.forall_mem_singleton]
      exact ⟨(standsIn_of_operandStep hleft).within ((((Within.refl left).left _).left _).left _ |>.left _),
        (standsIn_of_operandStep hright).within ((Within.refl right).right _)⟩

/-- The parts of a case stand in its text. -/
theorem within_caseText {base default : Option String} {whens : List String} {part : String}
    (h : part ∈ base ∨ (∃ branch ∈ whens, Within part branch) ∨ part ∈ default) :
  Within part (caseText base whens default)
  := by
  have hbranches : (∃ branch ∈ whens, Within part branch) ∨ part ∈ default →
      ∃ t ∈ whens ++ default.toList.map ("ELSE " ++ ·), Within part t := by
    rintro (⟨branch, hbranch, hpart⟩ | hpart)
    · exact ⟨branch, List.mem_append_left _ hbranch, hpart⟩
    · exact ⟨_, List.mem_append_right _ (List.mem_map_of_mem (Option.mem_toList.mpr hpart)),
        (Within.refl part).right _⟩
  rw [caseText]
  split
  · rcases h with hbase | h
    · have hhead : Within part (joinWith " " ("CASE" :: base.toList)) :=
        .joinWith ⟨part, List.mem_cons_of_mem _ (Option.mem_toList.mpr hbase), .refl part⟩
      exact ((hhead.left _).left _).left _
    · exact ((Within.joinWith (hbranches h)).indent 2).between _ _
  · refine (Within.joinWith ?_).between _ _
    rw [List.append_assoc]
    rcases h with hbase | h
    · exact ⟨part, List.mem_append_left _ (Option.mem_toList.mpr hbase), .refl part⟩
    · obtain ⟨t, ht, hpart⟩ := hbranches h
      exact ⟨t, List.mem_append_right _ ht, hpart⟩

/-- The texts of a list stand in the text that joins them. -/
theorem standsIn_of_mapM {f : NodeId → Result} {ids : List NodeId} {texts : List String} {sep : String}
    (h : ids.mapM f = .ok texts) :
  ∀ id ∈ ids, StandsIn f (joinWith sep texts) id
  := by
  intro id hid
  obtain ⟨inner, hmem, hinner⟩ := exists_mem_of_mapM_eq_ok h id hid
  exact ⟨inner, hinner, .joinWith ⟨inner, hmem, .refl inner⟩⟩

/-- The operands of an infix operator, and a date that is shifted. -/
theorem standsIn_of_binary {op : BinaryOp} {l r : NodeId} (hn : v.graph.node id = .binary op l r)
    (h : v.plainStep shown id = .ok text) :
  ∀ p ∈ v.plainParts id, StandsIn shown text p
  := by
  simp only [plainStep, hn] at h
  simp only [plainParts, hn]
  split
  case h_1 unit count hr =>
      rw [hr] at h
      by_cases hadd : op = .add ∨ op = .sub
      · rw [if_pos hadd]
        simp only [if_pos hadd] at h
        obtain ⟨left, hleft, h⟩ := exists_of_bind_eq_ok h
        cases h
        exact List.forall_mem_singleton.mpr
          ⟨left, hleft, (((Within.refl left).right _).left _).left _ |>.left _⟩
      · rw [if_neg hadd]
        simp only [if_neg hadd] at h
        exact standsIn_of_infix h
  case h_2 hother =>
      split at h
      case h_1 unit count hr => exact absurd hr (hother unit count)
      case h_2 => exact standsIn_of_infix h

/-- The cases of a choice. -/
theorem standsIn_of_choice {base default : Option NodeId} {whens : List (NodeId × NodeId)}
    (hn : v.graph.node id = .case base whens default) (h : v.plainStep shown id = .ok text) :
  ∀ p ∈ v.plainParts id, StandsIn shown text p
  := by
  simp only [plainStep, hn] at h
  simp only [plainParts, hn]
  obtain ⟨branches, hbranches, h⟩ := exists_of_bind_eq_ok h
  obtain ⟨base, hbase, h⟩ := exists_of_bind_eq_ok h
  obtain ⟨default, hdefault, h⟩ := exists_of_bind_eq_ok h
  cases h
  rw [List.forall_mem_append, List.forall_mem_append]
  refine ⟨⟨?_, ?_⟩, ?_⟩
  · intro p hp
    obtain ⟨w, hw, hp⟩ := List.mem_flatMap.mp hp
    obtain ⟨branch, hmem, hbranch⟩ := exists_mem_of_mapM_eq_ok hbranches w hw
    obtain ⟨condition, hcondition, hbranch⟩ := exists_of_bind_eq_ok hbranch
    obtain ⟨result, hresult, hbranch⟩ := exists_of_bind_eq_ok hbranch
    cases hbranch
    rcases List.mem_pair.mp hp with rfl | rfl
    · exact ⟨condition, hcondition, within_caseText
        (.inr (.inl ⟨_, hmem, (((Within.refl condition).right _).left _).left _⟩))⟩
    · exact ⟨result, hresult,
        within_caseText (.inr (.inl ⟨_, hmem, (Within.refl result).right _⟩))⟩
  · intro p hp
    obtain ⟨inner, hmem, hinner⟩ := standsIn_of_onOption hbase p hp
    exact ⟨inner, hinner, within_caseText (.inl hmem)⟩
  · intro p hp
    obtain ⟨inner, hmem, hinner⟩ := standsIn_of_onOption hdefault p hp
    exact ⟨inner, hinner, within_caseText (.inr (.inr hmem))⟩

/-- The parts of a value that is written stand in its text. -/
theorem standsIn_of_plainStep (h : v.plainStep shown id = .ok text) :
  ∀ p ∈ v.plainParts id, StandsIn shown text p
  := by
  cases hn : v.graph.node id
  case binary op l r => exact standsIn_of_binary hn h
  case case base whens default => exact standsIn_of_choice hn h
  all_goals simp only [plainStep, hn] at h
  all_goals simp only [plainParts, hn]
  case named arg name => exact List.forall_mem_singleton.mpr ⟨text, h, .refl text⟩
  case unary op arg =>
      rw [List.forall_mem_singleton]
      cases op <;> obtain ⟨inner, harg, h⟩ := exists_of_bind_eq_ok h <;> cases h
      case not | negate => exact (standsIn_of_operandStep harg).within ((Within.refl inner).right _)
      case isNull | notNull => exact (standsIn_of_operandStep harg).within ((Within.refl inner).left _)
  case call function arguments =>
      obtain ⟨texts, htexts, h⟩ := exists_of_bind_eq_ok h
      cases h
      exact fun p hp => (standsIn_of_mapM htexts p hp).within ((Within.refl _).between _ _)
  case cast arg target =>
      obtain ⟨argument, harg, h⟩ := exists_of_bind_eq_ok h
      cases h
      exact List.forall_mem_singleton.mpr
        ⟨argument, harg, (((Within.refl argument).right _).left _).left _ |>.left _⟩
  case extract arg unit =>
      obtain ⟨argument, harg, h⟩ := exists_of_bind_eq_ok h
      cases h
      exact List.forall_mem_singleton.mpr
        ⟨argument, harg, (((Within.refl argument).right _).left _).left _ |>.left _⟩
  case between arg low high =>
      obtain ⟨argument, harg, h⟩ := exists_of_bind_eq_ok h
      obtain ⟨lower, hlow, h⟩ := exists_of_bind_eq_ok h
      obtain ⟨upper, hhigh, h⟩ := exists_of_bind_eq_ok h
      cases h
      rw [List.forall_mem_cons, List.forall_mem_cons, List.forall_mem_singleton]
      exact ⟨(standsIn_of_operandStep harg).within
          ((((Within.refl argument).left _).left _).left _ |>.left _),
        ⟨lower, hlow, (((Within.refl lower).right _).left _).left _⟩,
        upper, hhigh, (Within.refl upper).right _⟩
  case contains arg options negated =>
      cases options with
      | list values =>
          obtain ⟨argument, harg, h⟩ := exists_of_bind_eq_ok h
          obtain ⟨texts, htexts, h⟩ := exists_of_bind_eq_ok h
          cases h
          refine List.forall_mem_cons.mpr ⟨(standsIn_of_operandStep harg).within
            ((((Within.refl argument).left _).left _).left _ |>.left _), fun p hp => ?_⟩
          exact (standsIn_of_mapM htexts p hp).within ((Within.refl _).between _ _)
      | column c => cases h
  case reduction aggregate arg =>
      obtain ⟨argument, harg, h⟩ := exists_of_bind_eq_ok h
      cases h
      exact List.forall_mem_singleton.mpr ⟨argument, harg, (Within.refl argument).between _ _⟩
  all_goals exact fun p hp => absurd hp List.not_mem_nil

/-- The parts of a value that is written stand in its text. -/
theorem standsIn_of_valueStep (h : v.valueStep shown id = .ok text) :
  ∀ p ∈ v.parts id, StandsIn shown text p
  := by
  rw [valueStep] at h
  rw [parts]
  cases hnested : nestedFor? v.nested id with
  | none =>
      rw [hnested] at h
      exact standsIn_of_plainStep h
  | some s =>
      rw [hnested] at h
      obtain ⟨body, _, h⟩ := exists_of_bind_eq_ok h
      cases hkind : s.kind
      all_goals simp only [hkind] at h ⊢
      case table => exact standsIn_of_plainStep h
      case membership =>
          split
          case h_1 arg options negated hn =>
              rw [hn] at h
              obtain ⟨argument, harg, h⟩ := exists_of_bind_eq_ok h
              cases h
              exact List.forall_mem_singleton.mpr ((standsIn_of_operandStep harg).within
                (((Within.refl argument).left _).left _))
          case h_2 hother =>
              split at h
              case h_1 arg options negated hn => exact absurd hn (hother arg options negated)
              case h_2 => exact standsIn_of_plainStep h
      all_goals exact fun p hp => absurd hp List.not_mem_nil

/-- A value that is written has a text for each column that is written with it. -/
theorem column_of_value {t : NodeId} {name : String} (hwrites : v.Writes id t name) :
    ∀ {text : String}, v.value id = .ok text → ∃ text, v.column t name = .ok text := by
  induction hwrites with
  | @column id t name hplain hn =>
      intro text h
      rw [value, NodeId.recurse_eq_below, valueStep] at h
      rw [isSubquery] at hplain
      cases hnested : nestedFor? v.nested id with
      | none =>
          simp only [hnested, plainStep, hn] at h
          exact ⟨text, h⟩
      | some s =>
          rw [hnested] at h
          obtain ⟨body, _, h⟩ := exists_of_bind_eq_ok h
          cases hkind : s.kind <;> simp [hnested, hkind, plainStep, hn] at h hplain
          all_goals exact ⟨text, h⟩
  | @part id p t name hp _ ih =>
      intro text h
      rw [value, NodeId.recurse_eq_below] at h
      obtain ⟨text', htext, _⟩ := standsIn_of_valueStep h p hp
      beta_reduce at htext
      split at htext
      · exact ih htext
      · cases htext

/-- The value that an item of the select list is written with, if it is no whole table. -/
def itemValue? (v : View) (id : NodeId) : Option NodeId :=
  match v.graph.node id with
  | .named arg _ => some arg
  | n => if n.isRelation then none else some id

/-- The values of a block that are written: those of its select list, its joins and its other
clauses. -/
def values (v : View) : List NodeId :=
  v.clauses.select.filterMap v.itemValue?
    ++ v.clauses.from?.toList.flatMap (fun t => t.joins.flatMap JoinClause.predicates)
    ++ v.clauses.predicates ++ v.clauses.having ++ v.clauses.orderBy.map SortKey.expr

/-- A block reads a column of a table when it is written with one of its values. -/
def Reads (v : View) (t : NodeId) (name : String) : Prop :=
  ∃ value ∈ v.values, v.Writes value t name

theorem standsIn_of_predicate (h : v.predicate id = .ok text) :
  StandsIn v.value text id
  := by
  rw [predicate] at h
  obtain ⟨inner, hinner, h⟩ := exists_of_bind_eq_ok h
  refine ⟨inner, hinner, ?_⟩
  split at h <;> cases h
  · exact (Within.refl inner).between _ _
  · exact .refl _

/-- The predicates of a clause that is written stand in its line. -/
theorem standsIn_of_predicates {ids : List NodeId} {head sep : String} {lines : List String}
    (h : (if ids = [] then return [] else do return [head ++ joinWith sep (← v.predicates ids)])
      = Except.ok lines) :
  ∀ id ∈ ids, ∃ line ∈ lines, StandsIn v.value line id
  := by
  intro id hid
  rw [if_neg (List.ne_nil_of_mem hid)] at h
  obtain ⟨texts, htexts, h⟩ := exists_of_bind_eq_ok h
  cases h
  obtain ⟨text, hmem, htext⟩ := exists_mem_of_mapM_eq_ok htexts id hid
  exact ⟨_, List.mem_cons_self, (standsIn_of_predicate htext).within
    ((Within.joinWith ⟨text, hmem, .refl text⟩).right head)⟩

/-- The value of an item of the select list stands in the text of the item. -/
theorem standsIn_of_item {item value : NodeId} (h : v.item item = .ok text)
    (hvalue : v.itemValue? item = some value) :
  StandsIn v.value text value
  := by
  rw [View.item] at h
  rw [itemValue?] at hvalue
  cases hn : v.graph.node item
  case named arg name =>
      rw [hn] at h hvalue
      cases hvalue
      obtain ⟨inner, hinner, h⟩ := exists_of_bind_eq_ok h
      cases h
      exact ⟨inner, hinner, ((Within.refl inner).left _).left _⟩
  all_goals
    rw [hn] at h hvalue
    cases hvalue
  all_goals exact ⟨text, h, .refl text⟩

theorem within_placeItem (options : Options) (first : Bool) (line : Line) (item : String) :
  Within item (placeItem options first line item).1
  := by
  obtain ⟨e, line', hitem, hplaces⟩ := exists_places options first line item
  rw [hitem]
  cases hplaces with
  | block _ => exact ((Within.refl item).indent _).right _
  | wrapped _ _ => exact (Within.refl item).right _
  | joined _ _ => exact (Within.refl item).right _

/-- The items of a select list stand in its text. -/
theorem within_placeItems (options : Options) {item : String} {items : List String} (h : item ∈ items) :
    ∀ first line, Within item (placeItems options first line items) := by
  induction items with
  | nil => exact absurd h List.not_mem_nil
  | cons next items ih =>
      intro first line
      rcases List.mem_cons.mp h with rfl | h
      · exact (within_placeItem options first line item).left _
      · exact (ih h _ _).right _

/-- The tables of a FROM clause that is written stand in its line, and so do the predicates of
its joins. -/
theorem standsIn_of_fromClause {lines : List String} (h : v.fromClause = .ok lines) :
  ∀ t ∈ v.clauses.from?, ∃ line ∈ lines, (∀ leaf ∈ t.leaves, StandsIn v.table line leaf)
    ∧ ∀ c ∈ t.joins, ∀ p ∈ c.predicates, StandsIn v.value line p
  := by
  intro t ht
  rw [fromClause, ht] at h
  obtain ⟨text, htext, h⟩ := exists_of_bind_eq_ok h
  cases h
  refine ⟨_, List.mem_cons_self, ?_⟩
  rw [fromText] at htext
  obtain ⟨first, hfirst, htext⟩ := exists_of_bind_eq_ok htext
  obtain ⟨joins, hjoins, htext⟩ := exists_of_bind_eq_ok htext
  cases htext
  have hline : ∀ join ∈ joins,
      Within join ("FROM " ++ joinWith "\n" (first :: joins.map (indent v.options.indent))) := by
    intro join hjoin
    exact (Within.joinWith ⟨_, List.mem_cons_of_mem _ (List.mem_map_of_mem hjoin),
      (Within.refl join).indent _⟩).right _
  have hjoin : ∀ c ∈ t.joins, ∃ join ∈ joins, StandsIn v.table join c.table
      ∧ ∀ p ∈ c.predicates, StandsIn v.value join p := by
    intro c hc
    obtain ⟨join, hmem, hjoin⟩ := exists_mem_of_mapM_eq_ok hjoins c hc
    refine ⟨join, hmem, ?_⟩
    rw [joinText] at hjoin
    obtain ⟨table, htable, hjoin⟩ := exists_of_bind_eq_ok hjoin
    have hhead := (Within.refl table).right (joinKeyword c.kind ++ " ")
    split at hjoin
    case isTrue hnone =>
        cases hjoin
        exact ⟨⟨table, htable, hhead⟩, by rw [hnone]; exact nofun⟩
    case isFalse =>
        obtain ⟨predicates, hpredicates, hjoin⟩ := exists_of_bind_eq_ok hjoin
        cases hjoin
        exact ⟨⟨table, htable, (hhead.left _).left _⟩, fun p hp =>
          (standsIn_of_mapM hpredicates p hp).within ((((Within.refl _).right _).indent _).right _)⟩
  constructor
  · intro leaf hleaf
    rcases List.mem_cons.mp hleaf with rfl | hleaf
    · exact ⟨first, hfirst, (Within.joinWith ⟨first, List.mem_cons_self, .refl first⟩).right _⟩
    · obtain ⟨c, hc, rfl⟩ := List.mem_map.mp hleaf
      obtain ⟨join, hmem, htable, _⟩ := hjoin c hc
      exact htable.within (hline join hmem)
  · intro c hc p hp
    obtain ⟨join, hmem, _, hpredicates⟩ := hjoin c hc
    exact (hpredicates p hp).within (hline join hmem)

/-- The values of a block that is written stand in its text, and so do the tables of its FROM
clause. -/
theorem standsIn_of_text (h : v.text = .ok text) :
  (∀ id ∈ v.values, StandsIn v.value text id)
    ∧ ∀ leaf ∈ v.clauses.leaves, StandsIn v.table text leaf
  := by
  rw [View.text] at h
  obtain ⟨list, hlist, h⟩ := exists_of_bind_eq_ok h
  obtain ⟨source, hsource, h⟩ := exists_of_bind_eq_ok h
  obtain ⟨filter, hfilter, h⟩ := exists_of_bind_eq_ok h
  obtain ⟨having, hhaving, h⟩ := exists_of_bind_eq_ok h
  obtain ⟨order, horder, h⟩ := exists_of_bind_eq_ok h
  cases h
  have hline : ∀ line ∈ list :: (source ++ filter ++ v.groupClause ++ having ++ order ++ v.limitClause),
      Within line (joinWith "\n"
        (list :: (source ++ filter ++ v.groupClause ++ having ++ order ++ v.limitClause))) :=
    fun line hmem => .joinWith ⟨line, hmem, .refl line⟩
  simp only [List.forall_mem_cons, List.forall_mem_append] at hline
  obtain ⟨hlines, ⟨⟨⟨⟨hsources, hfilters⟩, _⟩, hhavings⟩, horders⟩, _⟩ := hline
  constructor
  · rw [values, List.forall_mem_append, List.forall_mem_append, List.forall_mem_append,
      List.forall_mem_append]
    refine ⟨⟨⟨⟨?_, ?_⟩, ?_⟩, ?_⟩, ?_⟩
    · intro id hid
      obtain ⟨item, hitem, hvalue⟩ := List.mem_filterMap.mp hid
      obtain ⟨items, hitems, hlist⟩ := exists_of_bind_eq_ok hlist
      cases hlist
      obtain ⟨text, hmem, htext⟩ := exists_mem_of_mapM_eq_ok hitems item hitem
      exact (standsIn_of_item htext hvalue).within
        (((within_placeItems v.options hmem true ⟨0, 0⟩).right _).trans hlines)
    · intro p hp
      obtain ⟨t, ht, hp⟩ := List.mem_flatMap.mp hp
      obtain ⟨c, hc, hp⟩ := List.mem_flatMap.mp hp
      obtain ⟨line, hmem, _, hpredicates⟩ := standsIn_of_fromClause hsource t (Option.mem_toList.mp ht)
      exact (hpredicates c hc p hp).within (hsources line hmem)
    · intro p hp
      obtain ⟨line, hmem, hstands⟩ := standsIn_of_predicates hfilter p hp
      exact hstands.within (hfilters line hmem)
    · intro p hp
      obtain ⟨line, hmem, hstands⟩ := standsIn_of_predicates hhaving p hp
      exact hstands.within (hhavings line hmem)
    · rw [List.forall_mem_map]
      intro k hk
      rw [orderClause, if_neg (List.ne_nil_of_mem hk)] at horder
      obtain ⟨keys, hkeys, horder⟩ := exists_of_bind_eq_ok horder
      cases horder
      obtain ⟨key, hmem, hkey⟩ := exists_mem_of_mapM_eq_ok hkeys k hk
      obtain ⟨text, htext, hkey⟩ := exists_of_bind_eq_ok hkey
      cases hkey
      exact ⟨text, htext, (((Within.joinWith ⟨_, hmem, (Within.refl text).left _⟩).right _).trans
        (horders _ List.mem_cons_self))⟩
  · intro leaf hleaf
    rw [Clauses.leaves] at hleaf
    split at hleaf
    case h_1 t ht =>
        obtain ⟨line, hmem, htables, _⟩ := standsIn_of_fromClause hsource t ht
        exact (htables leaf hleaf).within (hsources line hmem)
    case h_2 => exact absurd hleaf List.not_mem_nil

/-- The values of a block that is written are written. -/
theorem ok_of_text (h : v.text = .ok text) :
  ∀ id ∈ v.values, ∃ text, v.value id = .ok text
  := by
  intro id hid
  obtain ⟨inner, hinner, _⟩ := (standsIn_of_text h).1 id hid
  exact ⟨inner, hinner⟩

/-- A block that is written has a text for each column that it reads. -/
theorem column_of_reads {t : NodeId} {name : String} (h : v.text = .ok text)
    (hreads : v.Reads t name) :
  ∃ text, v.column t name = .ok text
  := by
  obtain ⟨value, hvalue, hwrites⟩ := hreads
  obtain ⟨text, htext⟩ := ok_of_text h value hvalue
  exact column_of_value hwrites htext

end Render.View

namespace Query

open Render

/-- The text of a block is written with the texts of its subqueries. -/
theorem text_select (g : Graph) (options : Render.Options) (c : Clauses)
    (nested : List (Nested Query)) :
  query g options (.select c nested) () = (view g options ⟨c, nested⟩).text
  := by
  rw [query, fold_select]
  rfl

theorem text_union (g : Graph) (options : Render.Options) (l r : Query) (distinct : Bool) :
  query g options (.union l r distinct) () = do
    let left ← query g options l ()
    let right ← query g options r ()
    return left ++ "\n" ++ (if distinct then "UNION" else "UNION ALL") ++ "\n" ++ right
  := rfl

end Query

end RelSql
