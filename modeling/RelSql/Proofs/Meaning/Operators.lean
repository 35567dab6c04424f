import RelSql.Proofs.Graph.Extension
import RelSql.Proofs.Graph.Chain
import RelSql.Proofs.Meaning.Rows
import RelSql.Proofs.Output.Firsts

/-!
# Rows of operators

Sorting is stable, so it commutes with filtering, and with keeping the first of equal rows when
equal rows have equal keys.

The rows of a table come from those of its input.  A table keeps its rows when the graph grows.
-/

/-! ## Sorted rows -/

namespace RelSql

section Insertion

variable {α : Type} {r : α → α → Prop} [DecidableRel r]

/-- An element that comes before all others is inserted before them. -/
theorem orderedInsert_of_forall {a : α} {l : List α} (h : ∀ b ∈ l, r a b) :
  l.orderedInsert r a = a :: l
  := by
  cases l with
  | nil => rfl
  | cons b l => exact List.orderedInsert_cons_of_le r l (h b List.mem_cons_self)

/-- An element that is not kept may as well not be inserted. -/
theorem filter_orderedInsert_of_neg (p : α → Bool) {a : α} (ha : p a = false) (l : List α) :
  (l.orderedInsert r a).filter p = l.filter p
  := by
  induction l with
  | nil => simp [ha]
  | cons b l ih =>
      rw [List.orderedInsert_cons]
      split
      · rw [List.filter_cons, ha]
        rfl
      · rw [List.filter_cons, List.filter_cons, ih]

variable [IsTrans α r]

/-- Filtering a sorted list commutes with inserting an element that is kept. -/
theorem filter_orderedInsert (p : α → Bool) {a : α} (ha : p a = true) {l : List α}
    (hl : l.Pairwise r) :
  (l.orderedInsert r a).filter p = (l.filter p).orderedInsert r a
  := by
  induction l with
  | nil => simp [ha]
  | cons b l ih =>
      obtain ⟨hb, hl⟩ := List.pairwise_cons.mp hl
      rw [List.orderedInsert_cons]
      split
      case isTrue hab =>
          have hbefore : ∀ c ∈ (b :: l).filter p, r a c := by
            intro c hc
            rcases List.mem_cons.mp (List.mem_of_mem_filter hc) with rfl | hc
            · exact hab
            · exact IsTrans.trans _ _ _ hab (hb c hc)
          rw [orderedInsert_of_forall hbefore, List.filter_cons, if_pos ha]
      case isFalse hab =>
          rw [List.filter_cons, ih hl, List.filter_cons]
          split
          · rw [List.orderedInsert_cons, if_neg hab]
          · rfl

variable [Std.Total r]

/-- Sorting commutes with filtering. -/
theorem filter_insertionSort (p : α → Bool) (l : List α) :
  (l.insertionSort r).filter p = (l.filter p).insertionSort r
  := by
  induction l with
  | nil => rfl
  | cons a l ih =>
      rw [List.insertionSort_cons]
      cases ha : p a with
      | true =>
          rw [filter_orderedInsert p ha (List.pairwise_insertionSort r l), ih, List.filter_cons,
            if_pos ha, List.insertionSort_cons]
      | false =>
          rw [filter_orderedInsert_of_neg p ha, ih, List.filter_cons, ha]
          rfl

variable [BEq α] [LawfulBEq α]

/-- Of an element that is inserted into a sorted list, only the inserted one is kept. -/
theorem eraseDups_orderedInsert (a : α) {l : List α} (hl : l.Pairwise r) :
  (l.orderedInsert r a).eraseDups = (l.eraseDups.filter fun b => !b == a).orderedInsert r a
  := by
  induction l with
  | nil => rfl
  | cons b l ih =>
      obtain ⟨hb, hl'⟩ := List.pairwise_cons.mp hl
      rw [List.orderedInsert_cons]
      split
      case isTrue hab =>
          have hbefore : ∀ c ∈ (b :: l).eraseDups.filter fun b => !b == a, r a c := by
            intro c hc
            have hc := List.mem_eraseDups.mp (List.mem_of_mem_filter hc)
            rcases List.mem_cons.mp hc with rfl | hc
            · exact hab
            · exact IsTrans.trans _ _ _ hab (hb c hc)
          rw [orderedInsert_of_forall hbefore, eraseDups_cons_eq]
      case isFalse hab =>
          have hne : a ≠ b := by
            rintro rfl
            exact hab ((Std.Total.total a a).elim id id)
          have hkeep : (!b == a) = true := by simp [hne.symm]
          have hkeep' : (!a == b) = true := by simp [hne]
          have hsorted : (l.eraseDups.filter fun c => !c == a).Pairwise r :=
            hl'.sublist (List.filter_sublist.trans (eraseDups_sublist l))
          rw [eraseDups_cons_eq, ih hl', filter_orderedInsert (fun c => !c == b) hkeep' hsorted,
            eraseDups_cons_eq, List.filter_cons, if_pos hkeep, List.orderedInsert_cons, if_neg hab,
            List.filter_filter, List.filter_filter]
          congr 2
          apply List.filter_congr
          intro c _
          exact Bool.and_comm _ _

/-- Sorting commutes with keeping first occurrences. -/
theorem eraseDups_insertionSort (l : List α) :
  (l.insertionSort r).eraseDups = l.eraseDups.insertionSort r
  := by
  induction l with
  | nil => rfl
  | cons a l ih =>
      rw [List.insertionSort_cons, eraseDups_orderedInsert a (List.pairwise_insertionSort r l), ih,
        filter_insertionSort, eraseDups_cons_eq, List.insertionSort_cons]

end Insertion

namespace Interpretation

variable {V α β : Type} (I : Interpretation V) {value : NodeId → α → V}

/-- Of two things, one comes before the other or with it. -/
theorem precedes_total (keys : List SortKey) (a b : α) :
  I.precedes value keys a b = true ∨ I.precedes value keys b a = true
  := by
  induction keys with
  | nil => exact .inl rfl
  | cons k rest ih =>
      have htotal := I.le_total (value k.expr a) (value k.expr b)
      rw [precedes, precedes]
      cases k.ascending <;> cases h : I.le (value k.expr a) (value k.expr b) <;>
        cases h' : I.le (value k.expr b) (value k.expr a) <;> simp_all

/-- A comparison by one key, and by others when it is a tie, is transitive when that by the
others is. -/
theorem lexicographic_trans {x y z : V} {p q r : Bool}
    (hpq : p = true → q = true → r = true)
    (hxy : (I.le x y && (!I.le y x || p)) = true) (hyz : (I.le y z && (!I.le z y || q)) = true) :
  (I.le x z && (!I.le z x || r)) = true
  := by
  obtain ⟨hxy, hp⟩ := Bool.and_eq_true_iff.mp hxy
  obtain ⟨hyz, hq⟩ := Bool.and_eq_true_iff.mp hyz
  rw [I.le_trans x y z hxy hyz, Bool.true_and]
  cases hzx : I.le z x with
  | false => rfl
  | true =>
      -- a tie between the ends is a tie on the way
      rw [I.le_trans y z x hyz hzx, Bool.not_true, Bool.false_or] at hp
      rw [I.le_trans z x y hzx hxy, Bool.not_true, Bool.false_or] at hq
      rw [hpq hp hq, Bool.or_true]

theorem precedes_trans (keys : List SortKey) {a b c : α}
    (hab : I.precedes value keys a b = true) (hbc : I.precedes value keys b c = true) :
  I.precedes value keys a c = true
  := by
  induction keys with
  | nil => rfl
  | cons k rest ih =>
      rw [precedes] at hab hbc ⊢
      cases hk : k.ascending with
      | true =>
          simp only [hk, if_true] at hab hbc ⊢
          exact I.lexicographic_trans ih hab hbc
      | false =>
          simp only [hk, Bool.false_eq_true, if_false] at hab hbc ⊢
          exact I.lexicographic_trans (fun hq hp => ih hp hq) hbc hab

instance (keys : List SortKey) :
    Std.Total fun a b : α => I.precedes value keys a b = true :=
  ⟨I.precedes_total keys⟩

instance (keys : List SortKey) :
    IsTrans α fun a b => I.precedes value keys a b = true :=
  ⟨fun _ _ _ => I.precedes_trans keys⟩

/-- Sorting by no keys changes nothing. -/
theorem sorted_nil (l : List α) :
  I.sorted value [] l = l
  := by
  apply List.Pairwise.insertionSort_eq
  exact List.pairwise_of_forall fun _ _ => rfl

theorem filter_sorted (keys : List SortKey) (p : α → Bool) (l : List α) :
  (I.sorted value keys l).filter p = I.sorted value keys (l.filter p)
  := filter_insertionSort p l

theorem eraseDups_sorted [BEq α] [LawfulBEq α] (keys : List SortKey) (l : List α) :
  (I.sorted value keys l).eraseDups = I.sorted value keys l.eraseDups
  := eraseDups_insertionSort l

/-- Sorting by values of what a function makes is sorting that by the values. -/
theorem map_sorted (keys : List SortKey) (f : β → α) (l : List β) :
  (I.sorted (fun k b => value k (f b)) keys l).map f = I.sorted value keys (l.map f)
  := by
  apply List.map_insertionSort
  intro a _ b _
  have h : ∀ keys, I.precedes (fun k b => value k (f b)) keys a b
      = I.precedes value keys (f a) (f b) := by
    intro keys
    induction keys with
    | nil => rfl
    | cons k rest ih => rw [precedes, precedes, ih]
  rw [h]

/-- Keys of equal values sort in the same way. -/
theorem sorted_congr {value' : NodeId → α → V} {keys keys' : List SortKey} {l : List α}
    (h : List.Forall₂ (fun k k' => k'.ascending = k.ascending
      ∧ ∀ a ∈ l, value' k'.expr a = value k.expr a) keys keys') :
  I.sorted value' keys' l = I.sorted value keys l
  := by
  have hsame : ∀ a ∈ l, ∀ b ∈ l,
      I.precedes value' keys' a b = I.precedes value keys a b := by
    intro a ha b hb
    induction h with
    | nil => rfl
    | cons hk _ ih => rw [precedes, precedes, hk.1, hk.2 a ha, hk.2 b hb, ih]
  have hsort := List.map_insertionSort (fun a b => I.precedes value' keys' a b = true)
    (fun a b => I.precedes value keys a b = true) id l
    (by
      intro a ha b hb
      rw [hsame a ha b hb]
      exact Iff.rfl)
  rw [List.map_id, List.map_id] at hsort
  exact hsort

end Interpretation

end RelSql

/-! ## Rows of operators -/

namespace RelSql

variable {V : Type} {I : Interpretation V} {g g' : Graph} {id t : NodeId}

/-- Two lists of predicates keep what both of them keep. -/
theorem Interpretation.keeps_append (A : Algebra (Context V → V)) (ps qs : List NodeId)
    (c : Context V) :
  I.keeps A g (ps ++ qs) c = (I.keeps A g ps c && I.keeps A g qs c)
  := List.all_append

/-- A list of items keeps the row that it makes. -/
theorem Graph.Extends.itemsRow_eq (e : g.Extends g') (hg : g.WellFounded) (hg' : g'.WellFounded)
    (A : Algebra (Context V → V)) {items : List NodeId} (hitems : ∀ i ∈ items, g.Has i) :
  g'.itemsRow A items = g.itemsRow A items
  := by
  funext c
  apply List.flatMap_congr
  intro item hitem
  have hhas := hitems item hitem
  rw [itemRow, itemRow, e.isRelation_eq hhas, e.name?_eq hhas, e.denote_eq hg hg' hhas]

/-- Predicates keep the same rows. -/
theorem Graph.Extends.keeps_eq (e : g.Extends g') (hg : g.WellFounded) (hg' : g'.WellFounded)
    (A : Algebra (Context V → V)) {predicates : List NodeId} (hp : ∀ p ∈ predicates, g.Has p) :
  I.keeps A g' predicates = I.keeps A g predicates
  := by
  funext c
  rw [Interpretation.keeps, Interpretation.keeps, Bool.eq_iff_iff, List.all_eq_true,
    List.all_eq_true]
  apply forall₂_congr
  intro p hmem
  rw [e.denote_eq hg hg' (hp p hmem)]

namespace Graph

variable [DecidableEq V] {db : Database V}

attribute [local simp] rowsStep

theorem rowsStep_stable (I : Interpretation V) (db : Database V) :
  NodeId.StableStep fun g => g.rowsStep I db
  := by
  constructor
  · intro g hg f f' id h
    have hc : ∀ c ∈ (g.node id).children, f c = f' c := fun c hc => h c (hg.child_lt hc)
    rw [rowsStep, rowsStep]
    cases hn : g.node id <;> rw [hn] at hc
    case view | projection | selection | aggregation | sort | limit | distinct =>
      simp only [hc _ List.mem_cons_self]
  · intro g g' below id hg hg' e hid
    have hc : ∀ c ∈ (g.node id).children, g.Has c := fun c hc => hg.has_child hid hc
    rw [rowsStep, rowsStep, e.node_eq hid]
    cases hn : g.node id <;> rw [hn] at hc
    case projection t items =>
      simp only [e.itemsRow_eq hg hg' I.values fun i hi => hc i (List.mem_cons_of_mem t hi)]
    case selection t predicates =>
      simp only [e.keeps_eq hg hg' I.values fun p hp => hc p (List.mem_cons_of_mem t hp)]
    case aggregation t keys metrics having =>
      have hkeys : ∀ i ∈ keys, g.Has i := fun i hi =>
        hc i (List.mem_cons_of_mem t (List.mem_append_left _ (List.mem_append_left _ hi)))
      have hitems : ∀ i ∈ keys ++ metrics, g.Has i := fun i hi =>
        hc i (List.mem_cons_of_mem t (List.mem_append_left _ hi))
      have hhaving : ∀ p ∈ having, g.Has p := fun p hp =>
        hc p (List.mem_cons_of_mem t (List.mem_append_right _ hp))
      simp only [e.itemsRow_eq hg hg' I.values hkeys, e.itemsRow_eq hg hg' I.values hitems,
        e.keeps_eq hg hg' I.values hhaving]
    case sort t keys =>
      apply Interpretation.sorted_congr
      rw [List.forall₂_same]
      intro k hk
      refine ⟨rfl, fun r _ => ?_⟩
      rw [e.denote_eq hg hg' (hc k.expr (List.mem_cons_of_mem t (List.mem_map_of_mem hk)))]

theorem rows_eq (hg : g.WellFounded) (id : NodeId) :
  g.rows I db id = g.rowsStep I db (g.rows I db) id
  := NodeId.recurse_eq ((rowsStep_stable I db).isLocal hg) id

/-- A table keeps its rows. -/
theorem Extends.rows_eq (e : g.Extends g') (hg : g.WellFounded) (hg' : g'.WellFounded)
    (hid : g.Has id) :
  g'.rows I db id = g.rows I db id
  := (rowsStep_stable I db).recurse_eq hg hg' e hid _

theorem rows_table (hg : g.WellFounded) {table : Table} (hn : g.node id = .table table) :
  g.rows I db id = db.rows table
  := by
  rw [Graph.rows_eq hg]
  simp [hn]

theorem rows_view (hg : g.WellFounded) (hn : g.node id = .view t) :
  g.rows I db id = g.rows I db t
  := by
  rw [Graph.rows_eq hg]
  simp [hn]

theorem rows_selection (hg : g.WellFounded) {predicates : List NodeId}
    (hn : g.node id = .selection t predicates) :
  g.rows I db id
    = (g.rows I db t).filter fun r => I.keeps I.values g predicates (.ofRow r)
  := by
  rw [Graph.rows_eq hg]
  simp [hn]

theorem rows_projection (hg : g.WellFounded) {items : List NodeId}
    (hn : g.node id = .projection t items) :
  g.rows I db id = (g.rows I db t).map fun r => g.itemsRow I.values items (.ofRow r)
  := by
  rw [Graph.rows_eq hg]
  simp [hn]

theorem rows_aggregation (hg : g.WellFounded) {keys metrics having : List NodeId}
    (hn : g.node id = .aggregation t keys metrics having) :
  g.rows I db id
    = (((grouped keys (fun r => g.itemsRow I.values keys (.ofRow r)) (g.rows I db t)).map
        Context.ofGroup).filter (I.keeps I.values g having)).map
          (g.itemsRow I.values (keys ++ metrics))
  := by
  rw [Graph.rows_eq hg]
  simp [hn]

theorem rows_sort (hg : g.WellFounded) {keys : List SortKey} (hn : g.node id = .sort t keys) :
  g.rows I db id
    = I.sorted (fun v r => g.denote I.values v (.ofRow r)) keys (g.rows I db t)
  := by
  rw [Graph.rows_eq hg]
  simp [hn]

theorem rows_limit (hg : g.WellFounded) {n offset : Nat} (hn : g.node id = .limit t n offset) :
  g.rows I db id = ((g.rows I db t).drop offset).take n
  := by
  rw [Graph.rows_eq hg]
  simp [hn]

theorem rows_distinct (hg : g.WellFounded) (hn : g.node id = .distinct t) :
  g.rows I db id = (g.rows I db t).eraseDups
  := by
  rw [Graph.rows_eq hg]
  simp [hn]

/-- The rows of a table are those below its selections that all predicates keep. -/
theorem rows_peel (hg : g.WellFounded) (id : NodeId) :
  g.rows I db id
    = (g.rows I db (g.peel id).table).filter fun r =>
        I.keeps I.values g (g.peel id).predicates (.ofRow r)
  := by
  apply chain_induction follows_selection hg (P := fun id => g.rows I db id
    = (g.rows I db (g.peel id).table).filter fun r =>
        I.keeps I.values g (g.peel id).predicates (.ofRow r))
  · intro id ht
    rw [peel_other hg ht]
    exact (List.filter_eq_self.mpr fun _ _ => rfl).symm
  · intro id t ht ih
    obtain ⟨predicates, hn⟩ := eq_selection ht
    rw [peel_selection hg hn, rows_selection hg hn, ih, List.filter_filter]
    apply List.filter_congr
    intro r _
    rw [Interpretation.keeps_append, Bool.and_comm]

end Graph

end RelSql
