import RelSql.Proofs.Block.Ranking

/-!
# Existence tests

A test that some row satisfies a predicate asks for rows of the cross join of the tables that
the predicate reads and that no block around has.  The rows are those for which each of the
conjuncts of the predicate holds.
-/

namespace RelSql

open Analysis

variable {g g' : Graph}

namespace Block

/-- One step of taking a conjunction apart. -/
theorem conjuncts_stable :
  NodeId.StableStep fun g (below : NodeId → List NodeId) id =>
    match g.node id with
    | .binary .and l r => below l ++ below r
    | _ => [id]
  := by
  constructor
  · intro g hg f f' id h
    simp only
    split
    case h_1 l r hn =>
        have hc : ∀ c ∈ [l, r], c.index < id.index := by
          intro c hc
          apply hg.child_lt
          rw [hn]
          exact hc
        rw [h l (hc l List.mem_cons_self),
          h r (hc r (List.mem_cons_of_mem l (List.mem_singleton_self r)))]
    · rfl
  · intro g g' below id _ _ h hid
    rw [h.node_eq hid]

theorem conjuncts_eq (hg : g.WellFounded) (id : NodeId) :
  conjuncts g id = match g.node id with
    | .binary .and l r => conjuncts g l ++ conjuncts g r
    | _ => [id]
  := NodeId.recurse_eq (conjuncts_stable.isLocal hg) id

/-- A predicate keeps its conjuncts when the graph grows. -/
theorem conjuncts_extends (e : g.Extends g') (hg : g.WellFounded) (hg' : g'.WellFounded)
    {id : NodeId} (hid : g.Has id) :
  conjuncts g' id = conjuncts g id
  := conjuncts_stable.recurse_eq hg hg' e hid _

/-- The operands of a conjunction are children. -/
theorem children_and {id l r : NodeId} (hn : g.node id = .binary .and l r) :
  l ∈ (g.node id).children ∧ r ∈ (g.node id).children
  := by
  rw [hn]
  exact ⟨List.mem_cons_self, List.mem_cons_of_mem l List.mem_cons_self⟩

/-- Induction on conjunctions: what holds of other values and is handed up holds. -/
theorem conjuncts_induction (hg : g.WellFounded) {P : NodeId → Prop}
    (hand : ∀ id l r, g.node id = .binary .and l r →
      conjuncts g id = conjuncts g l ++ conjuncts g r → P l → P r → P id)
    (hother : ∀ id, conjuncts g id = [id] → P id) (id : NodeId) :
  P id
  := by
  obtain ⟨i⟩ := id
  induction i using Nat.strongRecOn with
  | ind i ih =>
      have hsame := conjuncts_eq hg ⟨i⟩
      split at hsame
      case h_1 l r hn =>
          obtain ⟨hl, hr⟩ := children_and hn
          exact hand _ l r hn hsame (ih l.index (hg.child_lt hl)) (ih r.index (hg.child_lt hr))
      · exact hother _ hsame

/-- The conjuncts of a predicate are there. -/
theorem has_conjuncts (hg : g.WellFounded) {id : NodeId} (hid : g.Has id) :
  ∀ p ∈ conjuncts g id, g.Has p
  := by
  revert hid
  apply conjuncts_induction hg (P := fun id => g.Has id → ∀ p ∈ conjuncts g id, g.Has p)
  · intro id l r hn hsame hl hr hid
    obtain ⟨hchildl, hchildr⟩ := children_and hn
    rw [hsame, List.forall_mem_append]
    exact ⟨hl (hg.has_child hid hchildl), hr (hg.has_child hid hchildr)⟩
  · intro id hsame hid
    rw [hsame, List.forall_mem_singleton]
    exact hid

end Block

namespace Graph

/-- Cross joins with tables. -/
def crossed (tables : List NodeId) : List JoinClause :=
  tables.map fun t => ⟨.cross, t, []⟩

/-- The table `joined` is the cross join of `first` and the tables after it, the joins of which
come after `bound`. -/
inductive Crossed (g : Graph) (bound : Nat) : NodeId → List NodeId → NodeId → Prop where
  | nil (first : NodeId) : Crossed g bound first [] first
  | cons {first next joined r : NodeId} {rest : List NodeId}
      (hn : g.node next = .join .cross first r []) (hnext : bound < next.index)
      (h : Crossed g bound next rest joined) : Crossed g bound first (r :: rest) joined

theorem Crossed.mono (e : g.Extends g') {bound : Nat} {first joined : NodeId}
    {rest : List NodeId} (h : g.Crossed bound first rest joined) :
  g'.Crossed bound first rest joined
  := by
  induction h with
  | nil first => exact .nil first
  | cons hn hnext _ ih => exact .cons (e.node_eq_of hn nofun) hnext ih

theorem Crossed.chained {bound : Nat} {first joined : NodeId} {rest : List NodeId}
    (h : g.Crossed bound first rest joined) :
  g.Chained 0 first (crossed rest) joined
  := by
  induction h with
  | nil first => exact .nil first
  | cons hn _ _ ih => exact .cons hn (Nat.zero_le _) ih

/-- The table `rows` has a row for each combination of rows of `first` and the tables after it
for which a predicate holds; what it is made of comes after the predicate. -/
inductive Witnesses (g : Graph) (predicate first : NodeId) (rest : List NodeId)
    (rows : NodeId) : Prop where
  | intro {joined filtered one : NodeId} (hjoined : g.Crossed predicate.index first rest joined)
      (hnew : predicate.index < filtered.index)
      (hfiltered : g.node filtered = .selection joined (Block.conjuncts g predicate))
      (hone : g.node one = .literal (.integer 1))
      (hrows : g.node rows = .projection filtered [one])

theorem Witnesses.mono (e : g.Extends g') (hg : g.WellFounded) (hg' : g'.WellFounded)
    {predicate first rows : NodeId} {rest : List NodeId} (hp : g.Has predicate)
    (h : g.Witnesses predicate first rest rows) :
  g'.Witnesses predicate first rest rows
  := by
  obtain @⟨joined, filtered, one, hjoined, hnew, hfiltered, hone, hrows⟩ := h
  refine @Witnesses.intro _ _ _ _ _ joined filtered one (hjoined.mono e) hnew ?_
    (e.node_eq_of hone nofun) (e.node_eq_of hrows nofun)
  rw [Block.conjuncts_extends e hg hg' hp]
  exact e.node_eq_of hfiltered nofun

end Graph

namespace Block

/-- Tables are cross joined one after the other. -/
theorem grows_cross {bound : Nat} (rest : List NodeId) :
    ∀ {g : Graph} {first : NodeId}, g.WellFounded → bound < g.size → g.Has first →
      (∀ r ∈ rest, g.Has r) →
      Grows (fun g' joined => g'.Has joined ∧ g'.Crossed bound first rest joined)
        (rest.foldlM (fun l r => Analysis.push (.join .cross l r [])) first) g := by
  induction rest with
  | nil => exact fun hg _ hfirst _ => grows_pure hg ⟨hfirst, .nil _⟩
  | cons r rest ih =>
      intro g first hg hbound hfirst hrest
      obtain ⟨hr, hrest⟩ := List.forall_mem_cons.mp hrest
      rw [List.foldlM_cons]
      apply grows_bind (grows_push hg (n := .join .cross first r []) _)
      · intro next g₁ hg₁ e₁ ⟨hnext, hnode, hnew⟩
        have hbound₁ := Nat.lt_of_lt_of_le hbound e₁.size_le
        apply (ih hg₁ hbound₁ hnext fun c hc => (hrest c hc).mono e₁).imp
        rintro joined g₂ _ e₂ ⟨hjoined, hcrossed⟩
        refine ⟨hjoined, .cons (e₂.node_eq_of hnode nofun) ?_ hcrossed⟩
        exact Nat.lt_of_lt_of_le hbound hnew
      · exact List.forall_mem_cons.mpr ⟨hfirst, List.forall_mem_singleton.mpr hr⟩

/-- The rows that satisfy a predicate are those of the tables that the predicate reads and that
no block around has. -/
theorem grows_witnesses (hg : g.WellFounded) (enclosing : List (List NodeId))
    {predicate : NodeId} (hp : g.Has predicate) :
  Grows (fun g' table => g'.Has table ∧ ∃ first rest,
      (g.tables predicate).filter (fun t => !enclosing.any (·.contains t)) = first :: rest
        ∧ g'.Witnesses predicate first rest table)
    (witnesses enclosing predicate) g
  := by
  rw [witnesses]
  apply grows_get
  have htables : ∀ t ∈ (g.tables predicate).filter fun t => !enclosing.any (·.contains t),
      g.Has t := fun t ht => hg.has_tables hp t (List.mem_of_mem_filter ht)
  split
  · exact grows_fail hg _
  case h_2 first rest hfilter =>
      rw [hfilter] at htables
      obtain ⟨hfirst, hrest⟩ := List.forall_mem_cons.mp htables
      apply grows_bind (grows_cross rest hg hp hfirst hrest)
      rintro joined g₁ hg₁ e₁ ⟨hjoined, hjoins⟩
      apply grows_get
      apply grows_bind (grows_push hg₁
        (n := .selection joined (conjuncts g₁ predicate)) _)
      · intro filtered g₂ hg₂ e₂ hfiltered
        apply grows_bind (grows_push hg₂ (n := .literal (.integer 1)) nofun)
        intro one g₃ hg₃ e₃ hone
        apply (grows_push hg₃ (n := .projection filtered [one]) _).imp
        · intro rows g₄ hg₄ e₄ hrows
          have e := (e₂.trans e₃).trans e₄
          refine ⟨hrows.1, first, rest, hfilter, .intro (hjoins.mono e) ?_ ?_
            (e₄.node_eq_of hone.2.1 nofun) hrows.2.1⟩
          · exact Nat.lt_of_lt_of_le (hp.mono e₁) hfiltered.2.2
          rw [conjuncts_extends e hg₁ hg₄ (hp.mono e₁)]
          exact (e₃.trans e₄).node_eq_of hfiltered.2.1 nofun
        · exact List.forall_mem_cons.mpr
            ⟨hfiltered.1.mono e₃, List.forall_mem_singleton.mpr hone.1⟩
      · exact List.forall_mem_cons.mpr ⟨hjoined, has_conjuncts hg₁ (hp.mono e₁)⟩

end Block

end RelSql
