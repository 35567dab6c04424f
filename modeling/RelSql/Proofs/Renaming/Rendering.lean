import RelSql.Proofs.Block.Joins
import RelSql.Proofs.Renaming.Statements
import RelSql.Render.Query

/-!
# The text of similar statements

Similar blocks have the same text, or none for reasons of one kind: a column is written by its
table's alias and its name, which are the same for related handles, and nothing else of a handle
is written.
-/

namespace RelSql.Render

open List Relator Text

/-- The same result, or faults of one kind. -/
abbrev Concur {α : Type} (x y : Except CompileError α) : Prop :=
  Agree CompileError.kind Eq x y

section

variable {α β γ δ : Type} {x y : Except CompileError α}

theorem concur_rfl (x : Except CompileError α) :
  Concur x x
  := by
  cases x with
  | ok a => exact .ok rfl
  | error e => exact .error rfl

theorem Concur.bind {f f' : α → Except CompileError β} (h : Concur x y)
    (hf : ∀ a, Concur (f a) (f' a)) :
  Concur (x >>= f) (y >>= f')
  := by
  apply Agree.bind h
  rintro a _ rfl
  exact hf a

theorem Concur.map (f : α → β) (h : Concur x y) :
  Concur (do return f (← x)) (do return f (← y))
  := h.bind fun _ => .ok rfl

theorem Concur.mapM {T : γ → δ → Prop} {f : γ → Except CompileError α}
    {f' : δ → Except CompileError α} {l : List γ} {l' : List δ} (hl : Forall₂ T l l')
    (hf : ∀ c d, T c d → Concur (f c) (f' d)) :
  Concur (l.mapM f) (l'.mapM f')
  := by
  apply (Agree.mapM hl hf).imp
  intro as bs h
  rwa [forall₂_eq_eq_eq] at h

end

/-- Similar blocks, whose nested queries have the same texts. -/
structure View.Similar [Comparison] (R : Matching) (v v' : View) : Prop where
  graph : v.graph.Similar R v'.graph
  options : v.options = v'.options
  clauses : v.clauses.Similar R v'.clauses
  nested : Forall₂ (Nested.Similar R fun d d' => Concur (d ()) (d' ())) v.nested v'.nested

theorem isInfix_eq [Comparison] {R : Matching} {g g' : Graph} {i j : NodeId} (hg : g.Similar R g')
    (hij : R i j) :
  isInfix g i = isInfix g' j
  := by
  obtain ⟨n, n', hn, hn', hnn⟩ := hg.nodes hij
  rw [isInfix, isInfix, hn, hn']
  cases hnn with
  | binary op _ hr =>
      obtain ⟨m, m', hm, hm', hmm⟩ := hg.nodes hr
      simp only [hm, hm']
      cases hmm <;> rfl
  | unary op _ => cases op <;> rfl
  | _ => rfl

namespace View.Similar

variable [Comparison] {R : Matching} {v v' : View} {i j : NodeId}

theorem column (h : v.Similar R v') {t t' : NodeId} (ht : R t t') (name : String) :
  Concur (v.column t name) (v'.column t' name)
  := by
  rw [View.column, View.column, contains_eq_of_related h.graph.biUnique h.clauses.outputs ht,
    AliasScope.alias?_eq h.graph.biUnique h.clauses.scope ht]
  have hneeds : v.clauses.scope.needsAliases = v'.clauses.scope.needsAliases := by
    rw [AliasScope.needsAliases, AliasScope.needsAliases, h.clauses.scope.frame.alwaysAlias,
      h.clauses.scope.frame.aliases.length_eq]
  rw [hneeds]
  exact concur_rfl _

/-! ### Values -/

section

variable {shown shown' : NodeId → Result}

/-- Operands that are written alike below a handle. -/
abbrev Shown (R : Matching) (shown shown' : NodeId → Result) (i j : NodeId) : Prop :=
  ∀ c d, R c d → c.index < i.index → d.index < j.index → Concur (shown c) (shown' d)

/-- Related handles below two handles. -/
abbrev Below (R : Matching) (i j : NodeId) : Matching :=
  fun c d => R c d ∧ c.index < i.index ∧ d.index < j.index

theorem operandStep (h : v.Similar R v') (hs : Shown R shown shown' i j) {c d : NodeId}
    (hcd : Below R i j c d) :
  Concur (v.operandStep shown c) (v'.operandStep shown' d)
  := by
  obtain ⟨hcd, hc, hd⟩ := hcd
  have hunaliased := h.graph.unaliased hcd
  rw [View.operandStep, View.operandStep]
  apply Concur.bind
  · apply hs _ _ hunaliased
    · exact Nat.lt_of_le_of_lt (h.graph.wellFounded.unaliased_le c) hc
    · exact Nat.lt_of_le_of_lt (h.graph.wellFounded'.unaliased_le d) hd
  · intro text
    rw [isSome_eq_of_related (nestedFor?_related h.graph.biUnique h.nested hunaliased),
      isInfix_eq h.graph hunaliased]
    exact concur_rfl _

omit [Comparison] in
theorem shownList (hs : Shown R shown shown' i j) {l l' : List NodeId}
    (hl : Forall₂ (Below R i j) l l') :
  Concur (l.mapM shown) (l'.mapM shown')
  := Concur.mapM hl fun c d hcd => hs c d hcd.1 hcd.2.1 hcd.2.2

omit [Comparison] in
theorem shownOption (hs : Shown R shown shown' i j) {o o' : Option NodeId}
    (ho : Option.Rel (Below R i j) o o') :
  Concur (View.onOption shown o) (View.onOption shown' o')
  := by
  cases ho with
  | none => exact concur_rfl _
  | some hcd => exact (hs _ _ hcd.1 hcd.2.1 hcd.2.2).map some

/-- Infix operations, functions of two arguments, and additions of intervals. -/
theorem binary (h : v.Similar R v') (hs : Shown R shown shown' i j) (op : BinaryOp)
    {l l' r r' : NodeId} (hl : Below R i j l l') (hr : Below R i j r r')
    (hn : v.graph.node i = .binary op l r) (hn' : v'.graph.node j = .binary op l' r') :
  Concur (v.plainStep shown i) (v'.plainStep shown' j)
  := by
  have hshown : ∀ {c d}, Below R i j c d → Concur (shown c) (shown' d) :=
    fun hcd => hs _ _ hcd.1 hcd.2.1 hcd.2.2
  have hinfix : Concur
      (do return (← v.operandStep shown l) ++ " " ++ symbol op ++ " "
        ++ (← v.operandStep shown r))
      (do return (← v'.operandStep shown' l') ++ " " ++ symbol op ++ " "
        ++ (← v'.operandStep shown' r')) :=
    (h.operandStep hs hl).bind fun a => (h.operandStep hs hr).map fun b =>
      a ++ " " ++ symbol op ++ " " ++ b
  have hpow : Concur (do return "pow(" ++ (← shown l) ++ ", " ++ (← shown r) ++ ")")
      (do return "pow(" ++ (← shown' l') ++ ", " ++ (← shown' r') ++ ")") :=
    (hshown hl).bind fun a => (hshown hr).map fun b => "pow(" ++ a ++ ", " ++ b ++ ")"
  obtain ⟨m, m', hm, hm', hmm⟩ := h.graph.nodes hr.1
  rw [View.plainStep, View.plainStep]
  simp only [hn, hn', hm, hm']
  cases hmm with
  | interval unit count =>
      dsimp only
      split
      · exact (hshown hl).map fun a =>
          intervalFunction unit op ++ "(" ++ a ++ ", " ++ Value.integerText count ++ ")"
      · split
        · exact hpow
        · exact hinfix
  | _ =>
      dsimp only
      split
      · exact hpow
      · exact hinfix

theorem plainStep (h : v.Similar R v') (hs : Shown R shown shown' i j) (hij : R i j) :
  Concur (v.plainStep shown i) (v'.plainStep shown' j)
  := by
  have hshown : ∀ {c d}, Below R i j c d → Concur (shown c) (shown' d) :=
    fun hcd => hs _ _ hcd.1 hcd.2.1 hcd.2.2
  have hoperand : ∀ {c d}, Below R i j c d →
      Concur (v.operandStep shown c) (v'.operandStep shown' d) := h.operandStep hs
  have hnn := h.graph.children_below hij
  obtain ⟨n, hn⟩ : ∃ n, v.graph.node i = n := ⟨_, rfl⟩
  obtain ⟨n', hn'⟩ : ∃ n', v'.graph.node j = n' := ⟨_, rfl⟩
  rw [hn, hn'] at hnn
  rw [View.plainStep, View.plainStep, hn, hn']
  cases hnn with
  | binary op hl hr =>
      have htext := h.binary hs op hl hr hn hn'
      rwa [View.plainStep, View.plainStep, hn, hn'] at htext
  | unary op ha =>
      cases op with
      | not => exact (hoperand ha).map fun a => "NOT " ++ a
      | negate => exact (hoperand ha).map fun a => "-" ++ a
      | isNull => exact (hoperand ha).map fun a => a ++ " IS NULL"
      | notNull => exact (hoperand ha).map fun a => a ++ " IS NOT NULL"
  | literal | countStar => exact concur_rfl _
  | column name ht => exact h.column ht.1 name
  | named _ ha => exact hshown ha
  | call function hl =>
      exact (shownList hs hl).map fun l => function.sqlName ++ "(" ++ joinWith ", " l ++ ")"
  | cast target ha => exact (hshown ha).map fun a => "CAST(" ++ a ++ " AS " ++ target.sqlName ++ ")"
  | extract unit ha => exact (hshown ha).map fun a => "extract(" ++ a ++ ", '" ++ unit.name ++ "')"
  | between ha hb hc =>
      exact (hoperand ha).bind fun a => (hshown hb).bind fun b => (hshown hc).map fun c =>
        a ++ " BETWEEN " ++ b ++ " AND " ++ c
  | list negated ha hl =>
      exact (hoperand ha).bind fun a => (shownList hs hl).map fun l =>
        a ++ membershipKeyword negated ++ "(" ++ joinWith ", " l ++ ")"
  | reduction aggregate ha => exact (hshown ha).map fun a => aggregateOpening aggregate ++ a ++ ")"
  | case hb hw hd =>
      apply Concur.bind
      · apply Concur.mapM hw
        exact fun w w' hw => (hshown hw.1).bind fun a => (hshown hw.2).map fun b =>
          "WHEN " ++ a ++ " THEN " ++ b
      · exact fun whens => (shownOption hs hb).bind fun base =>
          (shownOption hs hd).map fun default => caseText base whens default
  | _ => exact .error rfl

theorem valueStep (h : v.Similar R v') (hs : Shown R shown shown' i j) (hij : R i j) :
  Concur (v.valueStep shown i) (v'.valueStep shown' j)
  := by
  have hplain := h.plainStep hs hij
  have hnested := nestedFor?_related h.graph.biUnique h.nested hij
  rw [View.valueStep, View.valueStep]
  generalize nestedFor? v.nested i = x at hnested
  generalize nestedFor? v'.nested j = y at hnested
  cases hnested with
  | none => exact hplain
  | @some s s' hss =>
      dsimp only
      rw [h.options, hss.kind]
      apply hss.query.bind
      intro text
      cases s'.kind with
      | scalar | «exists» => exact concur_rfl _
      | table => exact hplain
      | membership =>
          have hnn := h.graph.children_below hij
          revert hnn
          generalize v.graph.node i = n
          generalize v'.graph.node j = n'
          intro hnn
          cases hnn with
          | list negated ha _ | membership negated ha _ =>
              exact (h.operandStep hs ha).map fun a => a ++ membershipKeyword negated
                ++ ("(\n" ++ indent v'.options.indent text ++ "\n)")
          | _ => exact hplain

end

/-- Related values have the same text. -/
theorem value (h : v.Similar R v') (hij : R i j) :
  Concur (v.value i) (v'.value j)
  := by
  apply NodeId.recurse_related (P := fun _ _ => Concur) _ hij
  intro below below' i j hij hbelow
  exact h.valueStep hbelow hij

theorem predicate (h : v.Similar R v') (hij : R i j) :
  Concur (v.predicate i) (v'.predicate j)
  := by
  rw [View.predicate, View.predicate]
  apply (h.value hij).bind
  intro text
  obtain ⟨n, n', hn, hn', hnn⟩ := h.graph.nodes (h.graph.unaliased hij)
  rw [hn, hn']
  cases hnn with
  | binary op _ _ => cases op <;> exact concur_rfl _
  | _ => exact concur_rfl _

/-! ### Clauses -/

theorem needsAliases_eq (h : v.Similar R v') :
  v.clauses.scope.needsAliases = v'.clauses.scope.needsAliases
  := by
  rw [AliasScope.needsAliases, AliasScope.needsAliases, h.clauses.scope.frame.alwaysAlias,
    h.clauses.scope.frame.aliases.length_eq]

theorem starText_eq (h : v.Similar R v') (hij : R i j) :
  v.starText i = v'.starText j
  := by
  rw [starText, starText, h.needsAliases_eq,
    AliasScope.alias?_eq h.graph.biUnique h.clauses.scope hij]

theorem item (h : v.Similar R v') (hij : R i j) :
  Concur (v.item i) (v'.item j)
  := by
  have hvalue := h.value hij
  have hstar : Concur (.ok (v.starText i)) (.ok (v'.starText j)) := .ok (h.starText_eq hij)
  obtain ⟨n, n', hn, hn', hnn⟩ := h.graph.nodes hij
  rw [View.item, View.item, hn, hn']
  cases hnn with
  | join => exact concur_rfl _
  | named name ha => exact (h.value ha).map fun a => a ++ " AS " ++ quoted name
  | table | view | projection | selection | aggregation | sort | limit | distinct | union =>
      exact hstar
  | _ => exact hvalue

theorem selectList (h : v.Similar R v') :
  Concur v.selectList v'.selectList
  := by
  rw [View.selectList, View.selectList, h.options, h.clauses.distinct]
  exact (Concur.mapM h.clauses.select fun _ _ hij => h.item hij).map fun items =>
    (if v'.clauses.distinct then "SELECT DISTINCT" else "SELECT") ++ selectItems v'.options items

theorem physicalName (h : v.Similar R v') (hij : R i j) :
  Concur (v.physicalName i) (v'.physicalName j)
  := by
  obtain ⟨n, n', hn, hn', hnn⟩ := h.graph.nodes hij
  rw [View.physicalName, View.physicalName, hn, hn']
  cases hnn with
  | view ht =>
      obtain ⟨m, m', hm, hm', hmm⟩ := h.graph.nodes ht
      dsimp only
      rw [hm, hm']
      cases hmm with
      | table t => exact concur_rfl _
      | _ => exact .error rfl
  | table t =>
      dsimp only
      rw [hn, hn']
      exact concur_rfl _
  | _ =>
      dsimp only
      rw [hn, hn']
      exact .error rfl

theorem table (h : v.Similar R v') (hij : R i j) :
  Concur (v.table i) (v'.table j)
  := by
  have hderived := derivedFor?_related h.graph.biUnique h.nested hij
  rw [View.table, View.table, AliasScope.alias?_eq h.graph.biUnique h.clauses.scope hij]
  cases v'.clauses.scope.alias? j with
  | none => exact .error rfl
  | some label =>
      generalize derivedFor? v.nested i = x at hderived
      generalize derivedFor? v'.nested j = y at hderived
      cases hderived with
      | none =>
          dsimp only
          rw [h.needsAliases_eq]
          exact (h.physicalName hij).map fun name =>
            if v'.clauses.scope.needsAliases then name ++ " " ++ label else name
      | @some s s' hs =>
          dsimp only
          rw [hs.shared, h.options]
          cases s'.shared with
          | none =>
              exact hs.query.map fun text =>
                "(\n" ++ indent v'.options.indent text ++ "\n) " ++ label
          | some index =>
              dsimp only
              rw [AliasScope.sharedName?_eq h.clauses.scope]
              exact concur_rfl _

theorem joinText (h : v.Similar R v') {c c' : JoinClause} (hc : c.Similar R c') :
  Concur (v.joinText c) (v'.joinText c')
  := by
  rw [View.joinText, View.joinText, hc.kind, h.options]
  apply (h.table hc.table).bind
  intro text
  simp only [eq_nil_iff_of_related hc.predicates]
  split
  · exact concur_rfl _
  · exact (Concur.mapM hc.predicates fun _ _ hij => h.value hij).map fun texts =>
      joinKeyword c'.kind ++ " " ++ text ++ "\n"
        ++ indent v'.options.indent ("ON " ++ joinWith " AND\n   " texts)

theorem fromText (h : v.Similar R v') {t t' : TableSet} (ht : t.Similar R t') :
  Concur (v.fromText t) (v'.fromText t')
  := by
  rw [View.fromText, View.fromText, h.options]
  exact (h.table ht.first).bind fun first =>
    (Concur.mapM ht.joins fun _ _ hc => h.joinText hc).map fun joins =>
      joinWith "\n" (first :: joins.map (indent v'.options.indent))

theorem predicates (h : v.Similar R v') {l l' : List NodeId} (hl : Forall₂ R l l') :
  Concur (v.predicates l) (v'.predicates l')
  := Concur.mapM hl fun _ _ hij => h.predicate hij

theorem fromClause (h : v.Similar R v') :
  Concur v.fromClause v'.fromClause
  := by
  have hfrom := h.clauses.from?
  rw [View.fromClause, View.fromClause]
  generalize v.clauses.from? = x at hfrom
  generalize v'.clauses.from? = y at hfrom
  cases hfrom with
  | none => exact concur_rfl _
  | some ht => exact (h.fromText ht).map fun text => ["FROM " ++ text]

theorem whereClause (h : v.Similar R v') :
  Concur v.whereClause v'.whereClause
  := by
  rw [View.whereClause, View.whereClause]
  simp only [eq_nil_iff_of_related h.clauses.predicates]
  split
  · exact concur_rfl _
  · exact (h.predicates h.clauses.predicates).map fun texts =>
      ["WHERE " ++ joinWith " AND\n      " texts]

theorem havingClause (h : v.Similar R v') :
  Concur v.havingClause v'.havingClause
  := by
  rw [View.havingClause, View.havingClause]
  simp only [eq_nil_iff_of_related h.clauses.having]
  split
  · exact concur_rfl _
  · exact (h.predicates h.clauses.having).map fun texts =>
      ["HAVING " ++ joinWith " AND\n       " texts]

theorem orderClause (h : v.Similar R v') :
  Concur v.orderClause v'.orderClause
  := by
  rw [View.orderClause, View.orderClause]
  simp only [eq_nil_iff_of_related h.clauses.orderBy]
  split
  · exact concur_rfl _
  · refine Concur.map (fun texts => ["ORDER BY " ++ joinWith ", " texts])
      (Concur.mapM h.clauses.orderBy ?_)
    intro k k' hk
    rw [View.orderKey, View.orderKey, hk.2]
    exact (h.value hk.1).map fun text => text ++ if k'.ascending then "" else " DESC"

/-- Similar blocks have the same text. -/
theorem text (h : v.Similar R v') :
  Concur v.text v'.text
  := by
  have hgroup : v.groupClause = v'.groupClause := by
    rw [groupClause, groupClause, h.clauses.groupBy]
  have hlimit : v.limitClause = v'.limitClause := by
    rw [limitClause, limitClause, h.clauses.limit]
  rw [View.text, View.text, hgroup, hlimit]
  exact h.selectList.bind fun list => h.fromClause.bind fun source =>
    h.whereClause.bind fun filter => h.havingClause.bind fun having =>
      h.orderClause.map fun order => joinWith "\n"
        (list :: (source ++ filter ++ v'.groupClause ++ having ++ order ++ v'.limitClause))

end View.Similar

/-! ### Queries -/

variable [Comparison] {R : Matching} {g g' : Graph}

/-- Similar queries have the same text. -/
theorem query_concur (hg : g.Similar R g') (options : Options) {q q' : Query}
    (hq : q.Similar R q') :
  Concur (query g options q ()) (query g' options q' ())
  := by
  let P (d d' : Delayed) : Prop := Concur (d ()) (d' ())
  suffices hP : P (query g options q) (query g' options q') from hP
  apply hq.fold (P := P)
  · intro c c' nested nested' hc hn
    exact View.Similar.text ⟨hg, rfl, hc, hn⟩
  · intro l l' r r' distinct hl hr
    exact hl.bind fun left => hr.map fun right =>
      left ++ "\n" ++ (if distinct then "UNION" else "UNION ALL") ++ "\n" ++ right

theorem sharedTable_concur (hg : g.Similar R g') (options : Options) {t t' : SharedTable}
    (ht : t.Similar R t') :
  Concur (sharedTable g options t) (sharedTable g' options t')
  := by
  rw [sharedTable, sharedTable, ht.name]
  exact (query_concur hg options ht.query).map fun text =>
    t'.name ++ " AS (\n" ++ indent options.indent text ++ "\n)"

end RelSql.Render

namespace RelSql

open Render

/-- Similar statements have the same text. -/
theorem Statement.Similar.sql [Comparison] {R : Matching} {s s' : Statement} (h : s.Similar R s')
    (options : Render.Options) :
  Concur (s.sql options) (s'.sql options)
  := by
  rw [Statement.sql, Statement.sql]
  apply (query_concur h.graph options h.query).bind
  intro body
  rw [isEmpty_related h.shared]
  split
  · exact concur_rfl _
  · exact (Concur.mapM h.shared fun _ _ ht => sharedTable_concur h.graph options ht).map
      fun tables => "WITH " ++ Text.joinWith ",\n" tables ++ "\n" ++ body

end RelSql

/-! ### Compilation does not depend on handles

What an expression compiles to depends on the nodes that it reaches only, and not on their handles:
a graph that has the same nodes under other handles, in another order and among others, gives the
same SQL, or a fault of the same kind.
-/

namespace RelSql

open List Relator

namespace Graph

variable {g g' : Graph} {root : NodeId}

/-- The SQL text of an expression. -/
def sql (g : Graph) (root : NodeId) (options : Render.Options) : Except CompileError String := do
  (← g.analyze root).sql options

/-- The handles that an expression reaches. -/
inductive Reaches (g : Graph) (root : NodeId) : NodeId → Prop where
  | root : Reaches g root root
  | child {id c : NodeId} (h : Reaches g root id) (hc : c ∈ (g.node id).children) :
    Reaches g root c

theorem Reaches.has {id : NodeId} (hg : g.WellFounded) (hroot : g.Has root)
    (h : g.Reaches root id) :
  g.Has id
  := by
  induction h with
  | root => exact hroot
  | child _ hc ih => exact hg.has_child ih hc

/-- Graphs are similar along a one-to-one map of the handles that an expression reaches to handles
of the same nodes. -/
theorem similar_of_map [Comparison] (hg : g.WellFounded) (hg' : g'.WellFounded)
    (hroot : g.Has root) (f : NodeId → NodeId)
    (hinj : ∀ i j, g.Reaches root i → g.Reaches root j → f i = f j → i = j)
    (hf : ∀ i, g.Reaches root i → g'.node? (f i) = some ((g.node i).mapChildren f))
    (htests : ∀ i p, g.Reaches root i → g.node i = .any p → Comparison.entire) :
  Similar (fun i j => g.Reaches root i ∧ j = f i) g g'
  := by
  refine ⟨hg, hg', ⟨?_, ?_⟩, ?_, ?_, ?_, fun h => htests _ _ h.1⟩
  · rintro i k _ ⟨hi, rfl⟩ ⟨hk, heq⟩
    exact hinj i k hi hk heq
  · rintro i _ _ ⟨_, rfl⟩ ⟨_, rfl⟩
    rfl
  · rintro i _ ⟨hi, rfl⟩
    exact hi.has hg hroot
  · rintro i _ ⟨hi, rfl⟩
    exact has_of_node? (hf i hi)
  · rintro i _ ⟨hi, rfl⟩
    have hnode : g'.node (f i) = (g.node i).mapChildren f := by
      rw [node, hf i hi]
      rfl
    rw [hnode]
    apply (Node.similar_mapChildren f (g.node i)).mono
    rintro c _ ⟨hc, rfl⟩
    exact ⟨hi.child hc, rfl⟩

/-- An expression whose reachable nodes stand under other handles in another graph has the same
SQL there, and a fault of the same kind when it has none. -/
theorem sql_renamed (hg : g.WellFounded) (hg' : g'.WellFounded) (hroot : g.Has root)
    (f : NodeId → NodeId)
    (hinj : ∀ i j, g.Reaches root i → g.Reaches root j → f i = f j → i = j)
    (hf : ∀ i, g.Reaches root i → g'.node? (f i) = some ((g.node i).mapChildren f))
    (options : Render.Options) :
  (∀ text, g.sql root options = .ok text ↔ g'.sql (f root) options = .ok text)
    ∧ ∀ kind, (∃ e, g.sql root options = .error e ∧ e.kind = kind)
      ↔ ∃ e, g'.sql (f root) options = .error e ∧ e.kind = kind
  := by
  rw [← Agree.iff_eq]
  let _ : Comparison := ⟨True⟩
  have hsimilar := similar_of_map hg hg' hroot f hinj hf fun _ _ _ _ => trivial
  apply (hsimilar.analyze trivial ⟨.root, rfl⟩).bind
  rintro s s' ⟨S, hs⟩
  exact hs.sql options

/-- A filtered table, with one of its columns. -/
def cheapOrders : Graph := ⟨#[
  .table ⟨some "orders", none, ⟨[⟨"id", .int32⟩, ⟨"price", .double⟩]⟩⟩,
  .column ⟨0⟩ "price",
  .literal (.integer 10),
  .binary .lt ⟨1⟩ ⟨2⟩,
  .selection ⟨0⟩ [⟨3⟩],
  .column ⟨4⟩ "id",
  .projection ⟨4⟩ [⟨5⟩]]⟩

/-- The same expression among other nodes, and in another order. -/
def shuffledOrders : Graph := ⟨#[
  .literal (.integer 10),
  .table ⟨some "parts", none, ⟨[⟨"id", .int32⟩]⟩⟩,
  .table ⟨some "orders", none, ⟨[⟨"id", .int32⟩, ⟨"price", .double⟩]⟩⟩,
  .column ⟨2⟩ "price",
  .distinct ⟨1⟩,
  .binary .lt ⟨3⟩ ⟨0⟩,
  .selection ⟨2⟩ [⟨5⟩],
  .column ⟨6⟩ "price",
  .column ⟨6⟩ "id",
  .projection ⟨6⟩ [⟨8⟩]]⟩

/-- The text of the expression is that of the shuffled one. -/
theorem sql_renamed_shuffledOrders :
  cheapOrders.sql ⟨6⟩ .default = .ok "SELECT `id`\nFROM orders\nWHERE `price` < 10"
    ∧ shuffledOrders.sql ⟨9⟩ .default = .ok "SELECT `id`\nFROM orders\nWHERE `price` < 10"
  := by
  have hg : cheapOrders.WellFounded := by decide
  have hg' : shuffledOrders.WellFounded := by decide
  have hroot : cheapOrders.Has ⟨6⟩ := by decide
  let f (i : NodeId) : NodeId := ⟨[2, 3, 0, 5, 6, 8, 9].getD i.index 0⟩
  have hlt : ∀ i, cheapOrders.Reaches ⟨6⟩ i → i.index < 7 := fun i hi => hi.has hg hroot
  have hinj : ∀ i j, cheapOrders.Reaches ⟨6⟩ i → cheapOrders.Reaches ⟨6⟩ j → f i = f j →
      i = j := by
    have hall : ∀ i < 7, ∀ j < 7, f ⟨i⟩ = f ⟨j⟩ → i = j := by decide
    intro i j hi hj heq
    exact congrArg NodeId.mk (hall i.index (hlt i hi) j.index (hlt j hj) heq)
  have hf : ∀ i, cheapOrders.Reaches ⟨6⟩ i →
      shuffledOrders.node? (f i) = some ((cheapOrders.node i).mapChildren f) := by
    have hall : ∀ i < 7, shuffledOrders.node? (f ⟨i⟩)
        = some ((cheapOrders.node ⟨i⟩).mapChildren f) := by decide
    exact fun i hi => hall i.index (hlt i hi)
  have hrun : cheapOrders.sql ⟨6⟩ .default
      = .ok "SELECT `id`\nFROM orders\nWHERE `price` < 10" := by
    apply eq_ok_of_toOption
    decide
  exact ⟨hrun, ((sql_renamed hg hg' hroot f hinj hf .default).1 _).mp hrun⟩

end Graph

end RelSql
