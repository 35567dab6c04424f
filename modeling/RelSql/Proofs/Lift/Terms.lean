import RelSql.Proofs.Graph.Reading
import RelSql.Proofs.Lift.Soundness

/-!
# Terms

A term is what a value is made of, down to the columns, the row counts and the tables that it
reads.  What a value means in an algebra is the value of its term there, so a lifted value is
made of the same operators as the value that is lifted, over lifted operands.  It means what the
value means when the columns mean what they resolve to.

A value that is lifted through some operators and then through more of them is lifted through
all of them at once.  What a value is lifted to depends on the operators that are folded, and on
nothing else of the folding, unless the columns of outputs stay.
-/

/-! ## Terms -/

namespace RelSql

/-- What a value is made of. -/
inductive Term where
  | column (t : NodeId) (name : String)
  | count (t : NodeId)
  | table (t : NodeId)
  | operator (n : Node) (operands : List Term)

variable {α : Type}

mutual

/-- The value of a term in an algebra. -/
def Term.eval (A : Algebra α) : Term → α
  | .column t name => A.column t name
  | .count t => A.count t
  | .table t => A.table t
  | .operator n operands => A.operator n (evalAll A operands)

/-- The values of terms. -/
def Term.evalAll (A : Algebra α) : List Term → List α
  | [] => []
  | t :: rest => t.eval A :: evalAll A rest

end

/-- The algebra of terms. -/
def Algebra.terms : Algebra Term where
  column := .column
  count := .count
  table := .table
  operator := .operator

namespace Term

theorem evalAll_eq (A : Algebra α) (ts : List Term) :
  evalAll A ts = ts.map (eval A)
  := by
  induction ts with
  | nil => rfl
  | cons t rest ih => rw [evalAll, ih, List.map_cons]

/-- An operator has the value that the algebra gives it on the values of its operands. -/
theorem eval_operator (A : Algebra α) {β : Type} (n : Node) (operands : List β)
    (f : β → Term) :
  (Term.operator n (operands.map f)).eval A
    = A.operator n (operands.map fun c => (f c).eval A)
  := by
  rw [eval, evalAll_eq, List.map_map]
  rfl

end Term

variable {s : Folding} {mode : LiftMode} {g : Graph}

namespace Graph

/-- A value means what its term does. -/
theorem eval_denote (hg : g.WellFounded) (A : Algebra α) (id : NodeId) :
  (g.denote .terms id).eval A = g.denote A id
  := by
  obtain ⟨i⟩ := id
  induction i using Nat.strongRecOn with
  | ind i ih =>
      rcases (g.node ⟨i⟩).kinds with ⟨t, name, hn⟩ | ⟨t, hn⟩ | hn | hn
      · rw [denote_column hg _ hn, denote_column hg _ hn]
        rfl
      · rw [denote_countStar hg _ hn, denote_countStar hg _ hn]
        rfl
      · rw [denote_relation hg _ hn, denote_relation hg _ hn]
        rfl
      · rw [denote_operator hg _ hn, denote_operator hg _ hn, Algebra.terms,
          Term.eval_operator, ← Algebra.terms]
        congr 1
        apply List.map_congr_left
        intro c hc
        exact ih c.index (hg.child_lt hc)

end Graph

namespace Folding

/-- What the columns of a table and a value resolve to is what their terms do. -/
theorem eval_resolve (hg : g.WellFounded) (A : Algebra α) (id : NodeId) :
  (∀ name, ((s.resolve mode .terms g id).column name).eval A = (s.resolve mode A g id).column name)
    ∧ ((s.resolve mode .terms g id).value).eval A = (s.resolve mode A g id).value
  := by
  obtain ⟨i⟩ := id
  induction i using Nat.strongRecOn with
  | ind i ih =>
      have hc : ∀ c ∈ (g.node ⟨i⟩).children, ∀ name,
          ((s.resolve mode .terms g c).column name).eval A = (s.resolve mode A g c).column name :=
        fun c hc => (ih c.index (hg.child_lt hc)).1
      have hv : ∀ c ∈ (g.node ⟨i⟩).children,
          ((s.resolve mode .terms g c).value).eval A = (s.resolve mode A g c).value :=
        fun c hc => (ih c.index (hg.child_lt hc)).2
      have hu : ∀ c ∈ (g.node ⟨i⟩).children,
          ((s.resolve mode .terms g (g.unaliased c)).value).eval A
            = (s.resolve mode A g (g.unaliased c)).value :=
        fun c hc => (ih _ (Nat.lt_of_le_of_lt (hg.unaliased_le c) (hg.child_lt hc))).2
      constructor
      · intro name
        rw [Lift.resolve_column_eq hg, Lift.resolve_column_eq hg]
        unfold resolveColumn
        split
        · rfl
        · cases hn : g.node ⟨i⟩ <;> rw [hn] at hc hu
          case projection t selections =>
            simp only
            cases hp : Lift.provider? g selections name with
            | none => rfl
            | some item =>
                have hitem := List.mem_cons_of_mem t (provider_mem hp)
                simp only
                split
                · exact hc item hitem name
                · exact hu item hitem
          case aggregation t keys metrics having =>
            simp only
            split
            · rfl
            · cases hp : Lift.namedItem? g (keys ++ metrics) name with
              | none => rfl
              | some item =>
                  apply hu
                  apply List.mem_cons_of_mem
                  exact List.mem_append_left having (namedItem_mem hp)
          case join kind l r predicates =>
            simp only
            split
            · rfl
            · split
              · exact hc l (by simp [Node.children]) name
              · exact hc r (by simp [Node.children]) name
          case selection | sort | limit | distinct =>
            simp only
            split
            · rfl
            · exact hc _ List.mem_cons_self name
          all_goals
            simp only
            split <;> rfl
      · rw [Lift.resolve_value_eq hg, Lift.resolve_value_eq hg]
        rcases (g.node ⟨i⟩).kinds with ⟨t, name, hn⟩ | ⟨t, hn⟩ | hn | hn
        · rw [hn] at hc
          rw [resolveValue, resolveValue, hn]
          exact hc t List.mem_cons_self name
        · rw [resolveValue, resolveValue, hn]
          rfl
        · rw [resolveValue_relation _ _ hn, resolveValue_relation _ _ hn]
          rfl
        · rw [resolveValue_operator _ _ hn, resolveValue_operator _ _ hn, Algebra.terms,
            Term.eval_operator, ← Algebra.terms]
          congr 1
          exact List.map_congr_left hv

/-- A value is lifted when it is made of what the given value resolves to. -/
theorem lifts_of_terms (hg : g.WellFounded) {id l : NodeId} (hid : g.Has id) (hl : g.Has l)
    (h : g.denote .terms l = (s.resolve mode .terms g id).value) :
  s.Lifts mode g id l
  := by
  refine ⟨hid, hl, ?_⟩
  intro α A
  rw [← Graph.eval_denote hg A, h, (eval_resolve hg A id).2]

/-- A lifted operator is the same operator over lifted operands. -/
theorem Lifts.operands (hg : g.WellFounded) {id l : NodeId} (h : s.Lifts mode g id l)
    (ho : (g.node id).isOperator = true) :
  (g.node l).isOperator = true ∧ (g.node l).shape = (g.node id).shape
    ∧ List.Forall₂ (s.Lifts mode g) (g.node id).children (g.node l).children
  := by
  have hterm := h.denote .terms
  rw [Lift.resolve_value_eq hg, resolveValue_operator _ _ ho] at hterm
  rcases (g.node l).kinds with ⟨t, name, hn⟩ | ⟨t, hn⟩ | hn | hn
  · rw [Graph.denote_column hg _ hn] at hterm
    cases hterm
  · rw [Graph.denote_countStar hg _ hn] at hterm
    cases hterm
  · rw [Graph.denote_relation hg _ hn] at hterm
    cases hterm
  · rw [Graph.denote_operator hg _ hn] at hterm
    obtain ⟨hshape, hoperands⟩ := Term.operator.inj hterm
    refine ⟨hn, hshape, ?_⟩
    have hlift : ∀ {cs cs' : List NodeId}, (∀ c ∈ cs, g.Has c) → (∀ c ∈ cs', g.Has c) →
        cs'.map (g.denote .terms) = cs.map (fun c => (s.resolve mode .terms g c).value) →
        List.Forall₂ (s.Lifts mode g) cs cs' := by
      intro cs cs' hcs hcs' hsame
      induction cs generalizing cs' with
      | nil =>
          rw [List.map_eq_nil_iff.mp hsame]
          exact .nil
      | cons c cs ih =>
          obtain ⟨c', cs'', rfl, hc, hrest⟩ := List.map_eq_cons_iff.mp hsame
          obtain ⟨hhas, hcs⟩ := List.forall_mem_cons.mp hcs
          obtain ⟨hhas', hcs'⟩ := List.forall_mem_cons.mp hcs'
          exact .cons (lifts_of_terms hg hhas hhas' hc) (ih hcs hcs' hrest)
    exact hlift (fun c hc => hg.has_child h.source hc) (fun c hc => hg.has_child h.target hc)
      hoperands

end Folding

namespace Graph

/-- A value occurs in another one, below operators. -/
inductive Occurs (g : Graph) : NodeId → NodeId → Prop where
  | refl (id : NodeId) : Occurs g id id
  | operand {id c v : NodeId} (ho : (g.node id).isOperator = true)
      (hc : c ∈ (g.node id).children) (hv : Occurs g c v) : Occurs g id v

/-- What occurs in a value is lifted to what occurs in the lifted value. -/
theorem Occurs.lifts (hg : g.WellFounded) {id v l : NodeId} (h : g.Occurs id v)
    (hl : s.Lifts mode g id l) :
  ∃ v', g.Occurs l v' ∧ s.Lifts mode g v v'
  := by
  induction h generalizing l with
  | refl id => exact ⟨l, .refl l, hl⟩
  | operand ho hc _ ih =>
      obtain ⟨ho', _, hoperands⟩ := hl.operands hg ho
      obtain ⟨c', hc', hlc⟩ := forall₂_exists hoperands _ hc
      obtain ⟨v', hv', hlv⟩ := ih hlc
      exact ⟨v', .operand ho' hc' hv', hlv⟩

end Graph

/-! ### Lifting as substitution -/

namespace Graph

/-- A value means the same in two algebras in which the columns of the tables before it do. -/
theorem denote_congr (hg : g.WellFounded) {A A' : Algebra α} (hcount : A.count = A'.count)
    (htable : A.table = A'.table) (hoperator : A.operator = A'.operator) (v : NodeId)
    (hcolumn : ∀ t name, t.index < v.index → A.column t name = A'.column t name) :
  g.denote A v = g.denote A' v
  := by
  obtain ⟨i⟩ := v
  induction i using Nat.strongRecOn with
  | ind i ih =>
      rcases (g.node ⟨i⟩).kinds with ⟨t, name, hn⟩ | ⟨t, hn⟩ | hn | hn
      · rw [denote_column hg _ hn, denote_column hg _ hn]
        apply hcolumn
        apply hg.child_lt
        rw [hn]
        exact List.mem_singleton_self t
      · rw [denote_countStar hg _ hn, denote_countStar hg _ hn, hcount]
      · rw [denote_relation hg _ hn, denote_relation hg _ hn, htable]
      · rw [denote_operator hg _ hn, denote_operator hg _ hn, hoperator]
        congr 1
        apply List.map_congr_left
        intro c hc
        have hlt := hg.child_lt hc
        exact ih c.index hlt fun t name ht => hcolumn t name (Nat.lt_trans ht hlt)

end Graph

namespace Folding

/-- The algebra in which columns mean what they resolve to. -/
def resolving (s : Folding) (mode : LiftMode) (g : Graph) (A : Algebra α) : Algebra α :=
  { A with column := fun t name => (s.resolve mode A g t).column name }

/-- A value resolves to what it means when its columns mean what they resolve to. -/
theorem resolve_value (hg : g.WellFounded) (A : Algebra α) (v : NodeId) :
  (s.resolve mode A g v).value = g.denote (s.resolving mode g A) v
  := by
  obtain ⟨i⟩ := v
  induction i using Nat.strongRecOn with
  | ind i ih =>
      rw [Lift.resolve_value_eq hg]
      rcases (g.node ⟨i⟩).kinds with ⟨t, name, hn⟩ | ⟨t, hn⟩ | hn | hn
      · rw [Graph.denote_column hg _ hn, resolveValue, hn]
        rfl
      · rw [Graph.denote_countStar hg _ hn, resolveValue, hn]
        rfl
      · rw [Graph.denote_relation hg _ hn, resolveValue_relation _ _ hn]
        rfl
      · rw [Graph.denote_operator hg _ hn, resolveValue_operator _ _ hn]
        apply congrArg (A.operator _)
        apply List.map_congr_left
        exact fun c hc => ih c.index (hg.child_lt hc)

end Folding

end RelSql

/-! ## Lifting twice -/

namespace RelSql.Folding

variable {α : Type} {g : Graph} {s s' : Folding}

/-- Foldings of the same operators resolve alike where no columns of outputs stay. -/
theorem resolve_congr_mode {mode : LiftMode} (hmode : mode ≠ .output) (h : s'.fused = s.fused)
    (A : Algebra α) (g : Graph) :
  s'.resolve mode A g = s.resolve mode A g
  := by
  have hcontains : s'.contains = s.contains := by
    funext t
    rw [contains, contains, h]
  have hstep : s'.resolveStep mode A g = s.resolveStep mode A g := by
    funext below id
    rw [resolveStep, resolveStep]
    congr 1
    funext name
    simp only [resolveColumn, hcontains, hmode, decide_false, Bool.false_and, Bool.or_false]
  rw [resolve, resolve, hstep]

/-- Foldings of the same operators lift alike where no columns of outputs stay. -/
theorem Lifts.congr_mode {mode : LiftMode} (hmode : mode ≠ .output) (h : s'.fused = s.fused)
    {id l : NodeId} (hl : s.Lifts mode g id l) :
  s'.Lifts mode g id l
  := ⟨hl.source, hl.target, fun A => by rw [hl.denote A, resolve_congr_mode hmode h]⟩

/-- Foldings of the same operators lift alike. -/
theorem Lifts.congr (h : s'.fused = s.fused) {id l : NodeId} (hl : s.Lifts .substitute g id l) :
  s'.Lifts .substitute g id l
  := hl.congr_mode (by decide) h

/-- Resolving columns through some of the operators that are folded, and what is left through all
of them, is resolving them through all. -/
theorem resolve_column_of_subset (hg : g.WellFounded) {fused : List NodeId}
    (hsub : ∀ t ∈ fused, t ∈ s.fused) (A : Algebra α) (table : NodeId) (name : String) :
  ((Folding.of fused).resolve .substitute (s.resolving .substitute g A) g table).column name
    = (s.resolve .substitute A g table).column name
  := by
  obtain ⟨i⟩ := table
  induction i using Nat.strongRecOn generalizing name with
  | ind i ih =>
      -- a value below the table reads columns of tables below the table only
      have hvalue : ∀ v : NodeId, v.index < i →
          ((Folding.of fused).resolve .substitute (s.resolving .substitute g A) g v).value
            = (s.resolve .substitute A g v).value := by
        intro v hv
        rw [resolve_value hg, resolve_value hg]
        refine Graph.denote_congr hg ?_ ?_ ?_ v fun t name ht => ?_
        · rfl
        · rfl
        · rfl
        · exact ih t.index (Nat.lt_trans ht hv) name
      have hcolumn : ∀ c ∈ (g.node ⟨i⟩).children, ∀ name,
          ((Folding.of fused).resolve .substitute (s.resolving .substitute g A) g c).column name
            = (s.resolve .substitute A g c).column name :=
        fun c hc name => ih c.index (hg.child_lt hc) name
      have hitem : ∀ c ∈ (g.node ⟨i⟩).children,
          ((Folding.of fused).resolve .substitute (s.resolving .substitute g A) g
              (g.unaliased c)).value
            = (s.resolve .substitute A g (g.unaliased c)).value :=
        fun c hc => hvalue _ (Nat.lt_of_le_of_lt (hg.unaliased_le c) (hg.child_lt hc))
      have hkept : (s.resolving .substitute g A).column ⟨i⟩ name
          = (s.resolve .substitute A g ⟨i⟩).column name := rfl
      rw [Lift.resolve_column_eq hg]
      by_cases hmem : (⟨i⟩ : NodeId) ∈ fused
      · have hof : (Folding.of fused).contains ⟨i⟩ = true := List.contains_iff_mem.mpr hmem
        have hs : s.contains ⟨i⟩ = true := List.contains_iff_mem.mpr (hsub _ hmem)
        rw [Lift.resolve_column_eq hg] at hkept ⊢
        simp only [resolveColumn, hof, hs, Bool.not_true, reduceCtorEq, decide_false,
          Bool.false_and, Bool.or_false, Bool.false_eq_true, if_false] at hkept ⊢
        cases hn : g.node ⟨i⟩ <;> rw [hn] at hcolumn hitem hkept
        case projection t selections =>
          simp only at hkept ⊢
          cases hp : Lift.provider? g selections name with
          | none =>
              rw [hp] at hkept
              exact hkept
          | some item =>
              have hchild := List.mem_cons_of_mem t (provider_mem hp)
              simp only [hcolumn item hchild, hitem item hchild]
        case aggregation t keys metrics having =>
          simp only at hkept ⊢
          cases hp : Lift.namedItem? g (keys ++ metrics) name with
          | none =>
              rw [hp] at hkept
              exact hkept
          | some item =>
              have hchild : item ∈ (Node.aggregation t keys metrics having).children := by
                apply List.mem_cons_of_mem
                exact List.mem_append_left having (namedItem_mem hp)
              simp only [hitem item hchild]
        case join kind l r predicates =>
          have hl := hcolumn l (by simp [Node.children])
          have hr := hcolumn r (by simp [Node.children])
          simp only
          split
          · rw [hl]
          · rw [hr]
        case selection | sort | limit | distinct => exact hcolumn _ List.mem_cons_self name
        all_goals exact hkept
      · have hof : (Folding.of fused).contains ⟨i⟩ = false := by
          rw [contains, of, List.contains_eq_mem, decide_eq_false hmem]
        simp only [resolveColumn, hof, Bool.not_false, Bool.true_or, if_true]
        exact hkept

/-- What a value is lifted to through some of the operators that are folded resolves as the value
does. -/
theorem Lifts.resolve_eq (hg : g.WellFounded) {fused : List NodeId} {v v' : NodeId}
    (h : (Folding.of fused).Lifts .substitute g v v') (hsub : ∀ t ∈ fused, t ∈ s.fused)
    (A : Algebra α) :
  (s.resolve .substitute A g v').value = (s.resolve .substitute A g v).value
  := by
  rw [resolve_value hg, h.denote, resolve_value hg, resolve_value hg]
  refine Graph.denote_congr hg ?_ ?_ ?_ v fun t name _ => ?_
  · rfl
  · rfl
  · rfl
  · exact resolve_column_of_subset hg hsub A t name

/-- Lifting through some of the operators that are folded, and then through all of them, is lifting
through all of them. -/
theorem Lifts.trans (hg : g.WellFounded) {fused : List NodeId} {v v' l : NodeId}
    (h : (Folding.of fused).Lifts .substitute g v v') (hsub : ∀ t ∈ fused, t ∈ s.fused)
    (h' : s.Lifts .substitute g v' l) :
  s.Lifts .substitute g v l
  := ⟨h.source, h'.target, fun A => by rw [h'.denote A, h.resolve_eq hg hsub A]⟩

end RelSql.Folding

/-!
## Tables that lifted values read

A lifted value reads the tables that the columns of the given value resolve to.  A column of a
table that is not folded resolves to itself, and a column that is given away resolves to a
column of a table further below.
-/

namespace RelSql

variable {s : Folding} {g : Graph}

/-- The columns and the row counts that are read: their tables, and the names of the columns. -/
def Algebra.sources : Algebra (List (NodeId × Option String)) where
  column t name := [(t, some name)]
  count t := [(t, none)]
  table _ := []
  operator _ read := read.flatten

namespace Folding

/-- Whether a column of a table becomes a column of a table below it, or what it stands for
there. -/
def givesAway (s : Folding) (g : Graph) (table : NodeId) (name : String) : Bool :=
  s.contains table && match g.node table with
    | .projection _ selections => (Lift.provider? g selections name).isSome
    | .aggregation _ keys metrics _ => (Lift.namedItem? g (keys ++ metrics) name).isSome
    | .selection _ _ | .sort _ _ | .limit _ _ _ | .distinct _ | .join _ _ _ _ => true
    | _ => false

/-- A column of a table is kept, or given away to a column or a value further below. -/
theorem resolve_column_cases (hg : g.WellFounded) (table : NodeId) (name : String) :
  (s.givesAway g table name = false ∧ ∀ {α : Type} (A : Algebra α),
      (s.resolve .substitute A g table).column name = A.column table name)
    ∨ (s.givesAway g table name = true ∧ ∃ c, c.index < table.index ∧
      ((∀ {α : Type} (A : Algebra α), (s.resolve .substitute A g table).column name
        = (s.resolve .substitute A g c).column name)
      ∨ ∀ {α : Type} (A : Algebra α), (s.resolve .substitute A g table).column name
        = (s.resolve .substitute A g c).value))
  := by
  have hc : ∀ c ∈ (g.node table).children, c.index < table.index := fun c hc => hg.child_lt hc
  have hu : ∀ c ∈ (g.node table).children, (g.unaliased c).index < table.index :=
    fun c hc => Nat.lt_of_le_of_lt (hg.unaliased_le c) (hg.child_lt hc)
  have hcolumn : ∀ {α : Type} (A : Algebra α), (s.resolve .substitute A g table).column name
      = s.resolveColumn .substitute A g (s.resolve .substitute A g) table name :=
    fun A => Lift.resolve_column_eq hg A table name
  simp only [hcolumn, givesAway]
  unfold resolveColumn
  cases hs : s.contains table with
  | false => exact .inl ⟨rfl, fun _ => rfl⟩
  | true =>
      simp only [Bool.not_true, Bool.false_or, Bool.true_and, reduceCtorEq, decide_false,
        Bool.false_and, Bool.false_eq_true, if_false]
      cases hn : g.node table <;> rw [hn] at hc hu
      case projection t selections =>
        simp only
        cases hp : Lift.provider? g selections name with
        | none => exact .inl ⟨rfl, fun _ => rfl⟩
        | some item =>
            have hitem := List.mem_cons_of_mem t (provider_mem hp)
            refine .inr ⟨rfl, ?_⟩
            cases hr : g.isRelation item with
            | true => exact ⟨item, hc item hitem, .inl fun _ => by simp only [hr, if_true]⟩
            | false =>
                refine ⟨g.unaliased item, hu item hitem, .inr fun _ => ?_⟩
                simp only [hr, Bool.false_eq_true, if_false]
      case aggregation t keys metrics having =>
        simp only
        cases hp : Lift.namedItem? g (keys ++ metrics) name with
        | none => exact .inl ⟨rfl, fun _ => rfl⟩
        | some item =>
            refine .inr ⟨rfl, g.unaliased item, hu item ?_, .inr fun _ => rfl⟩
            exact List.mem_cons_of_mem _ (List.mem_append_left having (namedItem_mem hp))
      case join kind l r predicates =>
        simp only
        refine .inr ⟨trivial, if g.hasField l name then l else r, ?_, .inl fun _ => rfl⟩
        split
        · exact hc l (by simp [Node.children])
        · exact hc r (by simp [Node.children])
      case selection | sort | limit | distinct =>
        exact .inr ⟨rfl, _, hc _ List.mem_cons_self, .inl fun _ => rfl⟩
      all_goals exact .inl ⟨rfl, fun _ => rfl⟩

/-- The table that is read for something that a value reads. -/
def baseOf (s : Folding) (g : Graph) (source : NodeId × Option String) : Option NodeId :=
  match source.2 with
  | some name => (s.resolve .substitute .base g source.1).column name
  | none => some source.1

/-- The table that a lifted value reads first comes from the first thing that the value reads
for which there is one. -/
theorem base_value_eq (hg : g.WellFounded) (v : NodeId) :
  (s.resolve .substitute .base g v).value = (g.denote .sources v).findSome? (s.baseOf g)
  := by
  have hfirst : ∀ cs : List NodeId, (∀ c ∈ cs, (s.resolve .substitute .base g c).value
        = (g.denote .sources c).findSome? (s.baseOf g)) →
      (cs.map fun c => (s.resolve .substitute .base g c).value).findSome? id
        = ((cs.map (g.denote .sources)).flatten).findSome? (s.baseOf g) := by
    intro cs hcs
    induction cs with
    | nil => rfl
    | cons c rest ih =>
        obtain ⟨hhead, htail⟩ := List.forall_mem_cons.mp hcs
        rw [List.map_cons, List.map_cons, List.flatten_cons, List.findSome?_append, ← ih htail,
          ← hhead]
        cases (s.resolve .substitute .base g c).value <;> rfl
  obtain ⟨i⟩ := v
  induction i using Nat.strongRecOn with
  | ind i ih =>
      rw [Lift.resolve_value_eq hg]
      rcases (g.node ⟨i⟩).kinds with ⟨t, name, hn⟩ | ⟨t, hn⟩ | hn | hn
      · rw [Graph.denote_column hg _ hn, resolveValue, hn]
        simp [Algebra.sources, baseOf]
      · rw [Graph.denote_countStar hg _ hn, resolveValue, hn]
        simp [Algebra.sources, Algebra.base, baseOf]
      · rw [Graph.denote_relation hg _ hn, resolveValue_relation _ _ hn]
        rfl
      · rw [Graph.denote_operator hg _ hn, resolveValue_operator _ _ hn]
        exact hfirst _ fun c hc => ih c.index (hg.child_lt hc)

/-- The table that a column of a table resolves to does not come after the table, and the one
that a value reads comes before the value. -/
theorem base_le (hg : g.WellFounded) (id : NodeId) :
  (∀ name t, (s.resolve .substitute .base g id).column name = some t → t.index ≤ id.index)
    ∧ ∀ t, (s.resolve .substitute .base g id).value = some t → t.index < id.index
  := by
  obtain ⟨i⟩ := id
  induction i using Nat.strongRecOn with
  | ind i ih =>
      constructor
      · intro name t h
        rcases resolve_column_cases hg ⟨i⟩ name with ⟨_, heq⟩ | ⟨_, c, hlt, heq | heq⟩
        · rw [heq] at h
          rw [← Option.some.inj h]
        · rw [heq] at h
          exact Nat.le_of_lt (Nat.lt_of_le_of_lt ((ih c.index hlt).1 name t h) hlt)
        · rw [heq] at h
          exact Nat.le_of_lt (Nat.lt_trans ((ih c.index hlt).2 t h) hlt)
      · intro t h
        rw [Lift.resolve_value_eq hg] at h
        rcases (g.node ⟨i⟩).kinds with ⟨t', name, hn⟩ | ⟨t', hn⟩ | hn | hn
        · have hlt : t'.index < i := by
            apply hg.child_lt (c := t')
            rw [hn]
            exact List.mem_singleton_self t'
          rw [resolveValue, hn] at h
          exact Nat.lt_of_le_of_lt ((ih t'.index hlt).1 name t h) hlt
        · have hlt : t'.index < i := by
            apply hg.child_lt (c := t')
            rw [hn]
            exact List.mem_singleton_self t'
          rw [resolveValue, hn] at h
          rw [← Option.some.inj h]
          exact hlt
        · rw [resolveValue_relation _ _ hn] at h
          cases h
        · rw [resolveValue_operator _ _ hn] at h
          obtain ⟨_, hmem, hsome⟩ := List.exists_of_findSome?_eq_some h
          obtain ⟨c, hc, rfl⟩ := List.mem_map.mp hmem
          exact Nat.lt_trans ((ih c.index (hg.child_lt hc)).2 t hsome) (hg.child_lt hc)

/-- A column that is kept is read from its table, and one that is given away is not. -/
theorem base_column_eq_iff (hg : g.WellFounded) (table : NodeId) (name : String) :
  (s.resolve .substitute .base g table).column name = some table ↔
    s.givesAway g table name = false
  := by
  rcases resolve_column_cases hg table name with ⟨hkept, heq⟩ | ⟨hgiven, c, hlt, heq⟩
  · rw [heq, hkept]
    exact ⟨fun _ => rfl, fun _ => rfl⟩
  · rw [hgiven]
    refine ⟨fun h => ?_, nofun⟩
    rcases heq with heq | heq
    · rw [heq] at h
      exact absurd ((base_le hg c).1 name table h) (Nat.not_le_of_lt hlt)
    · rw [heq] at h
      exact absurd ((base_le hg c).2 table h) (Nat.not_lt_of_lt hlt)

/-- A lifted value reads the table `q` first when all that the value reads are columns of `q`
that are kept, and another table, or none, when these are columns that are given away. -/
theorem Lifts.base_of_columns (hg : g.WellFounded) (q : NodeId) (given : Bool) {v v' : NodeId}
    (h : s.Lifts .substitute g v v') (hreads : g.denote .sources v ≠ [])
    (hcolumns : ∀ r ∈ g.denote .sources v, r.1 = q
      ∧ ∃ name, r.2 = some name ∧ s.givesAway g q name = given) :
  g.denote .base v' = some q ↔ given = false
  := by
  rw [h.denote, base_value_eq hg]
  have hbase : ∀ r ∈ g.denote .sources v, s.baseOf g r = some q ↔ given = false := by
    rintro ⟨t, n⟩ hr
    obtain ⟨rfl, name, rfl, hgiven⟩ := hcolumns _ hr
    rw [baseOf, base_column_eq_iff hg, hgiven]
  constructor
  · intro hsome
    obtain ⟨r, hr, hsome⟩ := List.exists_of_findSome?_eq_some hsome
    exact (hbase r hr).mp hsome
  · intro hkept
    cases hsources : g.denote .sources v with
    | nil => exact absurd hsources hreads
    | cons r rest =>
        rw [hsources] at hbase
        rw [List.findSome?_cons, (hbase r List.mem_cons_self).mpr hkept]

end Folding

end RelSql
