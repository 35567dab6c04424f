import Mathlib.Logic.Relation
import RelSql.Proofs.Graph.Reading
import RelSql.Proofs.Output.Firsts

/-!
# Expanded values

The values of a graph share their operands.  An expanded value is a tree, in which what is shared
stands as often as it is used, down to the columns, the row counts and the tables, which end their
branches.  The traversals that find what a value reads visit every node of the graph once, and end
with what is found on the whole tree when it is read from left to right.
-/

namespace RelSql

open Relation

/-- What is found first in parts of a list, one after the other, is what is found first in one of
them. -/
theorem findSome?_flatMap {α β γ : Type} (f : α → List β) (p : β → Option γ) (l : List α) :
  (l.flatMap f).findSome? p = (l.map fun a => (f a).findSome? p).findSome? id
  := by
  rw [← List.head?_filterMap, List.filterMap_flatMap, List.head?_flatMap, List.findSome?_map]
  simp only [List.head?_filterMap]
  rfl

/-- A value without sharing: its handle, and its expanded operands. -/
inductive Expansion where
  | node (id : NodeId) (operands : List Expansion)

namespace Expansion

mutual

/-- The handles of an expanded value, read from left to right. -/
def reading : Expansion → List NodeId
  | .node id operands => id :: readingAll operands

/-- The handles of expanded values, read one after the other. -/
def readingAll : List Expansion → List NodeId
  | [] => []
  | t :: rest => t.reading ++ readingAll rest

end

theorem readingAll_eq (ts : List Expansion) :
  readingAll ts = ts.flatMap reading
  := by
  induction ts with
  | nil => rfl
  | cons t rest ih => rw [readingAll, ih, List.flatMap_cons]

end Expansion

/-- Whether a node may be entered to look for columns outside of reductions. -/
def Node.isOutside (n : Node) : Bool :=
  !n.isReduction && !n.isRelation

namespace Graph

variable {g : Graph} {id : NodeId} {β : Type}

/-- An operator stands over its expanded operands; any other node ends its branch. -/
def expandStep (g : Graph) (below : NodeId → Expansion) (id : NodeId) : Expansion :=
  .node id (if (g.node id).isOperator then (g.node id).children.map below else [])

/-- A value without sharing. -/
def expansion (g : Graph) : NodeId → Expansion :=
  NodeId.recurse (fun id => .node id []) g.expandStep

/-- The handles of a value, read from left to right, each as often as it is used. -/
def reading (g : Graph) (id : NodeId) : List NodeId :=
  (g.expansion id).reading

theorem expansion_eq (hg : g.WellFounded) (id : NodeId) :
  g.expansion id = g.expandStep g.expansion id
  := by
  apply NodeId.recurse_eq
  intro f f' n h
  have hmap : (g.node n).children.map f = (g.node n).children.map f' := by
    apply List.map_congr_left
    intro c hc
    exact h c (hg.child_lt hc)
  rw [expandStep, expandStep, hmap]

/-- A node is read before its operands. -/
theorem reading_eq (hg : g.WellFounded) (id : NodeId) :
  g.reading id = id :: (g.valueChildren id).flatMap g.reading
  := by
  rw [reading, expansion_eq hg, expandStep, Expansion.reading, Expansion.readingAll_eq]
  cases ho : (g.node id).isOperator with
  | false =>
      rw [valueChildren_eq_nil ho]
      rfl
  | true =>
      rw [valueChildren_operator ho, if_pos rfl, List.flatMap_map]
      rfl

/-! ### What a value leads to -/

/-- A node that may be entered leads to its children. -/
def Enters (g : Graph) (enters : Node → Bool) (n c : NodeId) : Prop :=
  enters (g.node n) = true ∧ c ∈ (g.node n).children

instance {enters : Node → Bool} {n c : NodeId} : Decidable (g.Enters enters n c) :=
  inferInstanceAs (Decidable (_ ∧ _))

/-- What a node leads to is the node, or what its children lead to if it may be entered. -/
theorem enters_iff {enters : Node → Bool} {r : NodeId} :
  ReflTransGen (g.Enters enters) id r
    ↔ id = r ∨ enters (g.node id) = true
      ∧ ∃ c ∈ (g.node id).children, ReflTransGen (g.Enters enters) c r
  := by
  rw [ReflTransGen.cases_head_iff]
  constructor
  · rintro (h | ⟨c, ⟨henters, hc⟩, h⟩)
    · exact .inl h
    · exact .inr ⟨henters, c, hc, h⟩
  · rintro (h | ⟨henters, c, hc, h⟩)
    · exact .inl h
    · exact .inr ⟨c, ⟨henters, hc⟩, h⟩

/-- The operands of a value are the children that it may be entered for. -/
theorem mem_valueChildren_iff {c : NodeId} :
  c ∈ g.valueChildren id ↔ (g.node id).isOperator = true ∧ c ∈ (g.node id).children
  := by
  cases ho : (g.node id).isOperator with
  | false => simp [valueChildren_eq_nil ho]
  | true => simp [valueChildren_operator ho]

/-- What is read of a value is what it leads to through operators. -/
theorem mem_reading_iff (hg : g.WellFounded) {r : NodeId} :
  r ∈ g.reading id ↔ ReflTransGen (g.Enters Node.isOperator) id r
  := by
  obtain ⟨i⟩ := id
  induction i using Nat.strongRecOn with
  | ind i ih =>
      rw [reading_eq hg, List.mem_cons, List.mem_flatMap, enters_iff]
      constructor
      · rintro (rfl | ⟨c, hc, hr⟩)
        · exact .inl rfl
        · obtain ⟨ho, hc⟩ := mem_valueChildren_iff.mp hc
          exact .inr ⟨ho, c, hc, (ih c.index (hg.child_lt hc)).mp hr⟩
      · rintro (rfl | ⟨ho, c, hc, hr⟩)
        · exact .inl rfl
        · exact .inr ⟨c, mem_valueChildren_iff.mpr ⟨ho, hc⟩, (ih c.index (hg.child_lt hc)).mpr hr⟩

/-- A property that a node has when it is found at the node, or when a child of a node that may be
entered has it, is found at some node that the node leads to. -/
theorem found_iff_enters (hg : g.WellFounded) {found : NodeId → Bool} {enters : Node → Bool}
    (here : NodeId → Bool)
    (h : ∀ n, found n = (here n || enters (g.node n) && (g.node n).children.any found)) :
  found id = true ↔ ∃ r, ReflTransGen (g.Enters enters) id r ∧ here r = true
  := by
  obtain ⟨i⟩ := id
  induction i using Nat.strongRecOn with
  | ind i ih =>
      rw [h, Bool.or_eq_true, Bool.and_eq_true, List.any_eq_true]
      constructor
      · rintro (hhere | ⟨henters, c, hc, hfound⟩)
        · exact ⟨⟨i⟩, .refl, hhere⟩
        · obtain ⟨r, hr, hhere⟩ := (ih c.index (hg.child_lt hc)).mp hfound
          exact ⟨r, .head ⟨henters, hc⟩ hr, hhere⟩
      · rintro ⟨r, hr, hhere⟩
        rcases enters_iff.mp hr with rfl | ⟨henters, c, hc, hr⟩
        · exact .inl hhere
        · exact .inr ⟨henters, c, hc, (ih c.index (hg.child_lt hc)).mpr ⟨r, hr, hhere⟩⟩

/-! ### What is found -/

/-- Whether a handle is that of a column. -/
def isColumn (g : Graph) (id : NodeId) : Bool :=
  (g.columnTable? id).isSome

/-- The table of a column or of a row count. -/
def tableRead? (g : Graph) (id : NodeId) : Option NodeId :=
  match g.node id with
  | .column t _ => some t
  | .countStar t => some t
  | _ => none

theorem isColumn_of_column {t : NodeId} {name : String} (hn : g.node id = .column t name) :
  g.isColumn id = true
  := by
  rw [isColumn, columnTable?, hn]
  rfl

/-- A row count, a table or an operator is not a column. -/
theorem isColumn_eq_false (h : ∀ t name, g.node id ≠ .column t name) :
  g.isColumn id = false
  := by
  rw [isColumn, columnTable?]
  split
  case h_1 t name hn => exact absurd hn (h t name)
  · rfl

/-- A node with a property that no column has is not a column. -/
theorem isColumn_eq_false_of {p : Node → Bool} (hp : ∀ t name, p (.column t name) = false)
    (hn : p (g.node id) = true) :
  g.isColumn id = false
  := by
  apply isColumn_eq_false
  intro t name h
  rw [h, hp] at hn
  cases hn

/-- A value holds a reduction when it leads to one through operators. -/
theorem hasReduction_iff_enters (hg : g.WellFounded) (hid : g.Has id) :
  g.hasReduction id = true
    ↔ ∃ r, ReflTransGen (g.Enters Node.isOperator) id r ∧ (g.node r).isReduction = true
  := by
  rw [hasReduction_eq hg hid]
  apply found_iff_enters hg fun n => (g.node n).isReduction
  intro n
  rcases (g.node n).kinds with ⟨t, name, hn⟩ | ⟨t, hn⟩ | hn | hn
  · rw [denote_column hg _ hn, hn]
    rfl
  · rw [denote_countStar hg _ hn, hn]
    rfl
  · rw [denote_relation hg _ hn, Node.isOperator_of_isRelation hn]
    cases hnode : g.node n <;> rw [hnode] at hn <;> first | rfl | cases hn
  · rw [denote_operator hg _ hn, hn]
    simp only [Algebra.reductions, Node.isReduction_shape, List.any_map, Bool.true_and]
    rfl

/-- A value reads a column outside of reductions when it leads to one through nodes that are no
reductions and no tables. -/
theorem readsOutsideReductions_iff_enters (hg : g.WellFounded) (hid : g.Has id) :
  g.readsOutsideReductions id = true
    ↔ ∃ c, ReflTransGen (g.Enters Node.isOutside) id c ∧ g.isColumn c = true
  := by
  rw [readsOutsideReductions_eq hg hid]
  apply found_iff_enters hg g.isColumn
  intro n
  rcases (g.node n).kinds with ⟨t, name, hn⟩ | ⟨t, hn⟩ | hn | hn
  · rw [denote_column hg _ hn, isColumn_of_column hn]
    rfl
  · rw [denote_countStar hg _ hn, isColumn_eq_false (by simp [hn]), hn]
    rfl
  · rw [denote_relation hg _ hn, isColumn_eq_false_of (fun _ _ => rfl) hn, Node.isOutside, hn,
      Bool.not_true, Bool.and_false]
    rfl
  · rw [denote_operator hg _ hn, isColumn_eq_false_of (fun _ _ => rfl) hn, Node.isOutside,
      Node.isRelation_of_isOperator hn]
    simp only [Algebra.plainReads, Node.isReduction_shape, List.any_map, Bool.false_or,
      Bool.not_false, Bool.and_true]
    rfl

/-- The columns of a value are those that are read, each where it is read first. -/
theorem columns_eq_reading (hg : g.WellFounded) (hid : g.Has id) :
  g.columns id = ((g.reading id).filter g.isColumn).eraseDups
  := by
  obtain ⟨i⟩ := id
  induction i using Nat.strongRecOn with
  | ind i ih =>
      rw [columns_eq hg hid, columnsStep, reading_eq hg]
      split
      case h_1 t name hn =>
          rw [valueChildren_eq_nil (by rw [hn]; rfl), List.flatMap_nil, List.filter_singleton,
            isColumn_of_column hn]
          rfl
      case h_2 hn =>
          have hcolumn := isColumn_eq_false hn
          rw [List.filter_cons_of_neg (by rw [hcolumn]; exact Bool.false_ne_true), List.filter_flatMap]
          apply eraseDups_flatMap_congr
          rw [List.forall₂_same]
          intro c hc
          obtain ⟨_, hc⟩ := mem_valueChildren_iff.mp hc
          rw [ih c.index (hg.child_lt hc) (hg.has_child hid hc), eraseDups_eraseDups]

/-- The base table of a value is the table of the first column or row count that is read. -/
theorem baseTable_eq_reading (hg : g.WellFounded) (hid : g.Has id) :
  g.baseTable id = (g.reading id).findSome? g.tableRead?
  := by
  rw [baseTable_eq hg hid]
  obtain ⟨i⟩ := id
  induction i using Nat.strongRecOn with
  | ind i ih =>
      rw [reading_eq hg, List.findSome?_cons, tableRead?]
      rcases (g.node ⟨i⟩).kinds with ⟨t, name, hn⟩ | ⟨t, hn⟩ | hn | hn
      · rw [denote_column hg _ hn, hn]
        rfl
      · rw [denote_countStar hg _ hn, hn]
        rfl
      · rw [denote_relation hg _ hn, valueChildren_eq_nil (Node.isOperator_of_isRelation hn)]
        cases hnode : g.node ⟨i⟩ <;> rw [hnode] at hn <;> first | rfl | cases hn
      · have hoperands : g.denote .base ⟨i⟩
            = ((g.valueChildren ⟨i⟩).flatMap g.reading).findSome? g.tableRead? := by
          rw [valueChildren_operator hn, findSome?_flatMap]
          calc g.denote .base ⟨i⟩
              = ((g.node ⟨i⟩).children.map (g.denote .base)).findSome? id := denote_operator hg _ hn
            _ = ((g.node ⟨i⟩).children.map fun c =>
                  (g.reading c).findSome? g.tableRead?).findSome? id := by
                congr 1
                apply List.map_congr_left
                intro c hc
                exact ih c.index (hg.child_lt hc) (hg.has_child hid hc)
        cases hnode : g.node ⟨i⟩ <;> rw [hnode] at hn <;> first | exact hoperands | cases hn

/-- The output of a visitor at a node, by recursion on the handles. -/
def visitedBy (v : Visitor NodeId β) (default : β) : NodeId → β :=
  NodeId.recurse (fun _ => default) fun below n =>
    v.visit n ((v.dependencies n).map fun d => (d, below d))

/-- A visitor that follows the children of a node, or nothing, visits a node with its own outputs
at the dependencies. -/
theorem visitedBy_eq (hg : g.WellFounded) {v : Visitor NodeId β}
    (hdeps : ∀ n, v.dependencies n = [] ∨ v.dependencies n = (g.node n).children) (default : β)
    (n : NodeId) :
  v.visit n ((v.dependencies n).map fun d => (d, visitedBy v default d)) = visitedBy v default n
  := by
  symm
  apply NodeId.recurse_eq
  intro f f' n h
  have hsame : ∀ d ∈ v.dependencies n, (d, f d) = (d, f' d) := by
    intro d hd
    rcases hdeps n with hn | hn
    · rw [hn] at hd
      exact absurd hd List.not_mem_nil
    · rw [h d (hg.child_lt (hn ▸ hd))]
  exact congrArg (v.visit n) (List.map_congr_left hsame)

/-- A traversal that follows the children of a node, or nothing, ends with an output. -/
theorem accept?_traverse (hg : g.WellFounded) {v : Visitor NodeId β}
    (hdeps : ∀ n, v.dependencies n = [] ∨ v.dependencies n = (g.node n).children)
    (hid : g.Has id) (default : β) :
  v.accept? g.stepBound id = some (g.traverse v default id)
  := by
  have hvisit := visitedBy_eq hg hdeps default
  rw [accept?_eq hg hdeps hvisit hid, traverse_eq hg hdeps hvisit hid]

/-- The dependencies of a visitor that passes over reductions are the children of a node, or
none. -/
theorem plainReadVisitor_dependencies (g : Graph) (n : NodeId) :
  g.plainReadVisitor.dependencies n = [] ∨ g.plainReadVisitor.dependencies n = (g.node n).children
  := by
  simp only [plainReadVisitor]
  split
  · exact .inl rfl
  · exact g.valueChildren_cases n

/-- The four traversals of a value end with what is found in the expanded value: a reduction that
is reached without entering a column, a row count or a table; a column that is reached without
entering a reduction or a table; every column that is reached, once, where it is first read from
left to right; and the table of the column or row count that is read first. -/
theorem reads_expanded (hg : g.WellFounded) (hid : g.Has id) :
  (g.reductionVisitor.accept? g.stepBound id = some (g.hasReduction id)
      ∧ g.plainReadVisitor.accept? g.stepBound id = some (g.readsOutsideReductions id)
      ∧ g.columnVisitor.accept? g.stepBound id = some (g.columns id)
      ∧ g.tableVisitor.accept? g.stepBound id = some (g.baseTable id))
    ∧ (g.hasReduction id = true
      ↔ ∃ r, ReflTransGen (g.Enters Node.isOperator) id r ∧ (g.node r).isReduction = true)
    ∧ (g.readsOutsideReductions id = true
      ↔ ∃ c, ReflTransGen (g.Enters Node.isOutside) id c ∧ g.isColumn c = true)
    ∧ g.columns id = ((g.expansion id).reading.filter g.isColumn).eraseDups
    ∧ (∀ c, c ∈ g.columns id ↔ ReflTransGen (g.Enters Node.isOperator) id c ∧ g.isColumn c = true)
    ∧ g.baseTable id = (g.expansion id).reading.findSome? g.tableRead?
  := by
  have hcolumns := columns_eq_reading hg hid
  refine ⟨⟨?_, ?_, ?_, ?_⟩, hasReduction_iff_enters hg hid, readsOutsideReductions_iff_enters hg hid,
    hcolumns, ?_, baseTable_eq_reading hg hid⟩
  · exact accept?_traverse hg g.valueChildren_cases hid false
  · exact accept?_traverse hg g.plainReadVisitor_dependencies hid false
  · exact accept?_traverse hg g.valueChildren_cases hid []
  · exact accept?_traverse hg g.valueChildren_cases hid none
  · intro c
    rw [hcolumns, List.mem_eraseDups, List.mem_filter, mem_reading_iff hg]

/-- The squared sum of two columns, added up and divided by the number of rows, less the sum. -/
def squaredSum : Graph := ⟨#[
  .table ⟨some "t", none, ⟨[⟨"x", .int32⟩, ⟨"y", .int32⟩]⟩⟩,
  .column ⟨0⟩ "x",
  .column ⟨0⟩ "y",
  .binary .add ⟨2⟩ ⟨1⟩,
  .binary .mul ⟨3⟩ ⟨3⟩,
  .reduction .sum ⟨4⟩,
  .countStar ⟨0⟩,
  .binary .div ⟨5⟩ ⟨6⟩,
  .binary .sub ⟨7⟩ ⟨3⟩]⟩

/-- The sum is read three times, two of them in a reduction, and `y` is read first. -/
theorem reads_expanded_squaredSum :
  squaredSum.WellFounded ∧ squaredSum.Has ⟨8⟩
    ∧ (squaredSum.expansion ⟨8⟩).reading
      = [⟨8⟩, ⟨7⟩, ⟨5⟩, ⟨4⟩, ⟨3⟩, ⟨2⟩, ⟨1⟩, ⟨3⟩, ⟨2⟩, ⟨1⟩, ⟨6⟩, ⟨3⟩, ⟨2⟩, ⟨1⟩]
    ∧ squaredSum.hasReduction ⟨8⟩ = true ∧ squaredSum.readsOutsideReductions ⟨8⟩ = true
    ∧ squaredSum.readsOutsideReductions ⟨7⟩ = false
    ∧ squaredSum.columns ⟨8⟩ = [⟨2⟩, ⟨1⟩] ∧ squaredSum.baseTable ⟨8⟩ = some ⟨0⟩
  := by
  have hg : squaredSum.WellFounded := by decide
  have hid : squaredSum.Has ⟨8⟩ := by decide
  have hreading : (squaredSum.expansion ⟨8⟩).reading
      = [⟨8⟩, ⟨7⟩, ⟨5⟩, ⟨4⟩, ⟨3⟩, ⟨2⟩, ⟨1⟩, ⟨3⟩, ⟨2⟩, ⟨1⟩, ⟨6⟩, ⟨3⟩, ⟨2⟩, ⟨1⟩] := by
    decide
  obtain ⟨_, hreduction, hplain, hcolumns, _, htable⟩ := reads_expanded hg hid
  have hquotient : squaredSum.Enters Node.isOperator ⟨8⟩ ⟨7⟩ := by decide
  have hreduced : squaredSum.Enters Node.isOperator ⟨7⟩ ⟨5⟩ := by decide
  have hsum : squaredSum.Enters Node.isOutside ⟨8⟩ ⟨3⟩ := by decide
  have hfirst : squaredSum.Enters Node.isOutside ⟨3⟩ ⟨2⟩ := by decide
  refine ⟨hg, hid, hreading, ?_, ?_, by decide, ?_, ?_⟩
  · exact hreduction.mpr ⟨⟨5⟩, .head hquotient (.single hreduced), by decide⟩
  · exact hplain.mpr ⟨⟨2⟩, .head hsum (.single hfirst), by decide⟩
  · rw [hcolumns, hreading]
    decide
  · rw [htable, hreading]
    decide

end Graph

end RelSql
