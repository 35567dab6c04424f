import RelSql.Proofs.Output.FieldNames
import RelSql.Proofs.Renaming.Rendering

/-!
# Equal expressions and their types

Two expressions are equal when they are one handle, or when neither of them is a view and they
have the same operator with the same parameters on equal children, one by one.  This relation is an
equivalence, and comparing two expressions decides it, whatever was compared before.

Equality compares the constants of two expressions as values: decimal numbers are equal whatever
places they are written with, and their type tells the places.  All that equal expressions have at
one place below them then has one schema, or one type, just when decimal constants at one place
have as many places.
-/

/-! ## What equality of expressions decides -/

namespace RelSql

open List

namespace Node

variable {P Q R : Matching} {n m k : Node}

theorem literal_of_shape {v : Value} (h : n.shape = .literal v) :
  n = .literal v
  := by
  cases n
  case literal => exact h
  case contains a options negated => cases options <;> exact nomatch h
  all_goals exact nomatch h

/-- Only two constants are compared in another way than by being the same. -/
theorem equals_shape (hother : ∀ v w, n = .literal v → m = .literal w → False) :
  n.shape.equals m.shape = true ↔ n.shape = m.shape
  := by
  rw [equals.eq_def]
  split
  case h_1 v w hn hm => exact (hother v w (literal_of_shape hn) (literal_of_shape hm)).elim
  case h_2 => exact decide_eq_true_iff

/-- The same operator with the same parameters, on related children.  Constants are compared as
values. -/
def Matches (R : Matching) : Node → Node → Prop
  | .literal v, .literal w => v.equals w = true
  | n, m => Node.Similar R n m

/-- Nodes match when they are equal without their handles, and their children are related. -/
theorem matches_iff :
  Node.Matches R n m ↔ n.shape.equals m.shape = true ∧ Forall₂ R n.children m.children
  := by
  rw [Matches.eq_def]
  split
  case h_1 v w => exact (and_iff_left .nil).symm
  case h_2 hother =>
      rw [equals_shape hother]
      exact ⟨fun h => ⟨h.shape_eq, h.children⟩, fun h => similar_of_shape h.1 h.2⟩

end Node

namespace Graph

/-- The answers that are kept after a list of comparisons, one after the other. -/
def answersOf (g : Graph) (pairs : List (NodeId × NodeId)) : Comparisons :=
  pairs.foldl (fun known p => (g.equalsWith known p.1 p.2).2) []

variable {g : Graph}

/-- Right answers are kept by every comparison, and a comparison that has right answers only gives
the one that it gives without them. -/
theorem known_equalsWith (hg : g.WellFounded) {known : Comparisons} (hknown : g.Known known)
    (left right : NodeId) :
  g.Known (g.equalsWith known left right).2
    ∧ (g.equalsWith known left right).1 = g.equals left right
  := by
  obtain ⟨hkept, hanswer⟩ :=
    decides_compareWithin hg (left.index + 1) left right (Nat.lt_succ_self _) known hknown
  exact ⟨hkept, Bool.eq_iff_iff.mpr (hanswer.trans (equals_iff hg).symm)⟩

theorem known_answersOf (hg : g.WellFounded) (pairs : List (NodeId × NodeId)) :
  g.Known (g.answersOf pairs)
  := by
  apply List.foldlRecOn pairs _ (motive := g.Known) (fun p hp => absurd hp not_mem_nil)
  intro known hknown p _
  exact (known_equalsWith hg hknown p.1 p.2).1

/-- Expressions other than views that are not one handle are equal when they have the same operator
on equal children. -/
theorem equals_iff_matches (hg : g.WellFounded) {a b : NodeId} :
  g.equals a b = true ↔ a = b ∨ (∀ t, g.node a ≠ .view t) ∧ (∀ t, g.node b ≠ .view t)
    ∧ Node.Matches (fun c d => g.equals c d = true) (g.node a) (g.node b)
  := by
  rw [equals_iff hg, Node.matches_iff]
  by_cases hab : a = b
  · exact iff_of_true (hab ▸ .refl a) (.inl hab)
  · rw [same_iff_of_ne hab, or_iff_right hab]
    refine and_congr_right fun _ => and_congr_right fun _ => and_congr_right fun hshape => ?_
    rw [List.forall₂_iff_zip, and_iff_right (Node.length_children_of_shape hshape)]
    constructor
    · exact fun h _ _ hp => (equals_iff hg).mpr (h _ hp)
    · exact fun h p hp => (equals_iff hg).mp (h hp)

/-- A view is equal to itself only. -/
theorem equals_view_iff (hg : g.WellFounded) {a b : NodeId}
    (h : ∃ t, g.node a = .view t ∨ g.node b = .view t) :
  g.equals a b = true ↔ a = b
  := by
  rw [equals_iff_matches hg]
  refine ⟨fun heq => heq.resolve_right ?_, .inl⟩
  rintro ⟨ha, hb, _⟩
  obtain ⟨t, h | h⟩ := h
  · exact ha t h
  · exact hb t h

/-- Equality of expressions is the structural equality of their nodes, and an equivalence: two
handles are equal just when they are one handle, or neither is a view and both have the same
operator, with the same parameters, on children that are equal in order; a view is equal to itself
only.  What was compared before does not change an answer. -/
theorem equals_equivalence (hg : g.WellFounded) :
  Equivalence (fun a b => g.equals a b = true)
    ∧ (∀ a b, g.equals a b = true ↔ a = b ∨ (∀ t, g.node a ≠ .view t) ∧ (∀ t, g.node b ≠ .view t)
      ∧ Node.Matches (fun c d => g.equals c d = true) (g.node a) (g.node b))
    ∧ (∀ a b, (∃ t, g.node a = .view t ∨ g.node b = .view t) → (g.equals a b = true ↔ a = b))
    ∧ ∀ pairs a b, (g.equalsWith (g.answersOf pairs) a b).1 = g.equals a b
  := by
  refine ⟨⟨?_, equals_symm hg, equals_trans hg⟩, ?_, ?_, ?_⟩
  · exact fun a => (equals_iff hg).mpr (.refl a)
  · exact fun a b => equals_iff_matches hg
  · exact fun a b h => equals_view_iff hg h
  · exact fun pairs a b => (known_equalsWith hg (known_answersOf hg pairs) a b).2

/-- Two tables of one name, two views of the first one, and sums with a constant that is not a
number: one is added to the same column of either table, the other is another handle. -/
def addedNaNs : Graph :=
  ⟨#[.table ⟨some "t", none, ⟨[⟨"x", .double⟩]⟩⟩, .table ⟨some "t", none, ⟨[⟨"x", .double⟩]⟩⟩,
    .view ⟨0⟩, .view ⟨0⟩, .column ⟨0⟩ "x", .column ⟨1⟩ "x", .literal (.float .nan),
    .literal (.float .nan), .binary .add ⟨4⟩ ⟨6⟩, .binary .add ⟨5⟩ ⟨6⟩, .binary .add ⟨4⟩ ⟨7⟩]⟩

/-- The sums with one constant are equal, whatever was compared before; those with two constants
that are not numbers are not, and neither are the views. -/
theorem equals_equivalence_addedNaNs :
  addedNaNs.WellFounded ∧ addedNaNs.equals ⟨8⟩ ⟨9⟩ = true ∧ addedNaNs.equals ⟨9⟩ ⟨8⟩ = true
    ∧ addedNaNs.equals ⟨8⟩ ⟨10⟩ = false ∧ ¬ addedNaNs.equals ⟨2⟩ ⟨3⟩ = true
    ∧ addedNaNs.equals ⟨7⟩ ⟨7⟩ = true
    ∧ (addedNaNs.equalsWith (addedNaNs.answersOf [(⟨6⟩, ⟨7⟩), (⟨10⟩, ⟨9⟩)]) ⟨8⟩ ⟨9⟩).1 = true
  := by
  have hg : addedNaNs.WellFounded := by decide
  obtain ⟨hequiv, _, hview, hmemo⟩ := equals_equivalence hg
  have hsums : addedNaNs.equals ⟨8⟩ ⟨9⟩ = true := by decide
  have hviews : ¬ addedNaNs.equals ⟨2⟩ ⟨3⟩ = true := by
    rw [hview ⟨2⟩ ⟨3⟩ ⟨⟨0⟩, .inl rfl⟩]
    decide
  exact ⟨hg, hsums, hequiv.symm hsums, by decide, hviews, hequiv.refl _,
    (hmemo _ _ _).trans hsums⟩

end Graph

end RelSql

/-! ## Types of equal expressions -/

namespace RelSql

open List

/-- Equal values other than decimal numbers have one type. -/
theorem Value.dataType_eq {v w : Value} (h : v.equals w = true)
    (hdecimal : ∀ x y, v = .decimal x → w = .decimal y → v.dataType = w.dataType) :
  v.dataType = w.dataType
  := by
  cases v with
  | float x =>
      obtain ⟨y, rfl, _⟩ := Value.equals_float h
      rfl
  | decimal x =>
      obtain ⟨y, rfl, _⟩ := Value.equals_decimal h
      exact hdecimal x y rfl rfl
  | _ => rw [of_decide_eq_true h]

namespace Graph

variable {g : Graph} {a b c d : NodeId}

/-- The handles at one place below two handles. -/
inductive Corresponds (g : Graph) (a b : NodeId) : NodeId → NodeId → Prop where
  | here : Corresponds g a b a b
  | child {c d c' d' : NodeId} (h : Corresponds g a b c d)
    (hp : (c', d') ∈ (g.node c).children.zip (g.node d).children) : Corresponds g a b c' d'

/-- What is at one place below expressions that denote one computation denotes one, too. -/
theorem Corresponds.same (h : g.Corresponds a b c d) (hab : g.Same a b) :
  g.Same c d
  := by
  induction h with
  | here => exact hab
  | child _ hp ih =>
      cases ih with
      | refl =>
          rw [zip_eq_zipWith, zipWith_self, mem_map] at hp
          obtain ⟨e, _, heq⟩ := hp
          cases heq
          exact .refl _
      | node _ _ _ hchildren => exact hchildren _ hp

/-- Pairs that are closed under children hold all that is at one place below one of them. -/
theorem Corresponds.mem_of_closed (h : g.Corresponds a b c d) (pairs : List (NodeId × NodeId))
    (hroot : (a, b) ∈ pairs)
    (hclosed : ∀ p ∈ pairs, ∀ q ∈ (g.node p.1).children.zip (g.node p.2).children, q ∈ pairs) :
  (c, d) ∈ pairs
  := by
  induction h with
  | here => exact hroot
  | child _ hp ih => exact hclosed _ ih _ hp

/-- Expressions that denote one computation are equal constants, or have one operator. -/
theorem Same.nodes (h : g.Same c d) :
  (∃ v w, g.node c = .literal v ∧ g.node d = .literal w ∧ v.equals w = true)
    ∨ (g.node c).shape = (g.node d).shape
  := by
  cases h with
  | refl => exact .inr rfl
  | node _ _ hshape _ =>
      by_cases hliteral : ∃ v w, g.node c = .literal v ∧ g.node d = .literal w
      · obtain ⟨v, w, hc, hd⟩ := hliteral
        rw [hc, hd] at hshape
        exact .inl ⟨v, w, hc, hd, hshape⟩
      · refine .inr ((Node.equals_shape ?_).mp hshape)
        exact fun v w hc hd => hliteral ⟨v, w, hc, hd⟩

/-- The children of corresponding operators correspond. -/
theorem Corresponds.nodes (h : g.Corresponds a b c d) (hab : g.Same a b) :
  (∃ v w, g.node c = .literal v ∧ g.node d = .literal w ∧ v.equals w = true)
    ∨ Node.Similar (g.Corresponds a b) (g.node c) (g.node d)
  := by
  refine (h.same hab).nodes.imp_right fun hshape => Node.similar_of_shape hshape ?_
  rw [List.forall₂_iff_zip]
  refine ⟨?_, fun hp => h.child hp⟩
  rw [← Node.length_children_shape, hshape, Node.length_children_shape]

/-- Decimal constants at one place below two handles have one type. -/
def SamePlaces (g : Graph) (a b : NodeId) : Prop :=
  ∀ c d x y, g.Corresponds a b c d → g.node c = .literal (.decimal x) →
    g.node d = .literal (.decimal y) → (Value.decimal x).dataType = (Value.decimal y).dataType

theorem Corresponds.typing (hg : g.WellFounded) (hab : g.Same a b) (hplaces : g.SamePlaces a b)
    (h : g.Corresponds a b c d) :
  (g.typing c).Agrees (g.typing d)
  := by
  have hlabelled : Labelled (g.Corresponds a b) g g := by
    apply Labelled.of_nodes
    intro c d h
    refine (h.nodes hab).imp ?_ fun hnn => ⟨_, hnn⟩
    rintro ⟨v, w, hc, hd, _⟩
    exact ⟨v, w, hc, hd⟩
  apply NodeId.recurse_related (R := g.Corresponds a b) (P := fun _ _ => Typing.Agrees) _ h
  intro below below' c d h hbelow
  obtain ⟨v, w, hc, hd, hvw⟩ | hnn := h.nodes hab
  · constructor
    · simp only [typingStep, schemaStep, hc, hd]
      exact .error rfl
    · simp only [typingStep, dataTypeStep, hc, hd]
      refine .ok (Value.dataType_eq hvw ?_)
      rintro x y rfl rfl
      exact hplaces c d x y h hc hd
  · have htyped : Node.Similar (Labelled.Typed (g.Corresponds a b) below below') (g.node c)
        (g.node d) := by
      apply hnn.imp
      intro c' hc' d' hd' hcd
      exact ⟨hcd, hbelow c' d' hcd (hg.child_lt hc') (hg.child_lt hd')⟩
    exact ⟨hlabelled.schemaStep htyped, hlabelled.dataTypeStep htyped⟩

/-- What is at one place below two equal expressions has one schema, or one type, or is wrong in
the same way, just when decimal constants at one place below them have as many places. -/
theorem equals_types (hg : g.WellFounded) (hab : g.equals a b = true) :
  (∀ c d, g.Corresponds a b c d → Agree GraphError.kind Eq (g.schema c) (g.schema d)
      ∧ Agree GraphError.kind Eq (g.dataType c) (g.dataType d))
    ↔ g.SamePlaces a b
  := by
  rw [equals_iff hg] at hab
  constructor
  · intro h c d x y hcd hc hd
    have htypes := (h c d hcd).2
    rw [dataType_eq hg, dataType_eq hg, dataTypeStep, dataTypeStep, hc, hd] at htypes
    cases htypes with
    | ok heq => exact heq
  · intro hplaces c d hcd
    have h := hcd.typing hg hab hplaces
    exact ⟨h.schema, h.dataType⟩

/-- A column with a price of two places, twice, and once with a price of one place. -/
def pricedThrice : Graph :=
  ⟨#[.table ⟨some "t", none, ⟨[⟨"x", .int32⟩]⟩⟩,
    .literal (.decimal ⟨false, 100, 2⟩), .named ⟨1⟩ "price", .projection ⟨0⟩ [⟨2⟩],
    .literal (.decimal ⟨false, 100, 2⟩), .named ⟨4⟩ "price", .projection ⟨0⟩ [⟨5⟩],
    .literal (.decimal ⟨false, 10, 1⟩), .named ⟨7⟩ "price", .projection ⟨0⟩ [⟨8⟩]]⟩

/-- The prices of two places have one type, and so have the tables; the price of one place is equal
to them, and has another type. -/
theorem equals_types_pricedThrice :
  pricedThrice.WellFounded ∧ pricedThrice.equals ⟨3⟩ ⟨6⟩ = true ∧ pricedThrice.SamePlaces ⟨3⟩ ⟨6⟩
    ∧ pricedThrice.schema ⟨6⟩ = .ok ⟨[⟨"price", .decimal 38 2⟩]⟩
    ∧ pricedThrice.equals ⟨3⟩ ⟨9⟩ = true ∧ ¬ pricedThrice.SamePlaces ⟨3⟩ ⟨9⟩
  := by
  have hg : pricedThrice.WellFounded := by decide
  have hsame : pricedThrice.equals ⟨3⟩ ⟨6⟩ = true := by decide
  have hother : pricedThrice.equals ⟨3⟩ ⟨9⟩ = true := by decide +kernel
  have hplaces : pricedThrice.SamePlaces ⟨3⟩ ⟨6⟩ := by
    intro c d x y h hc hd
    have hmem := h.mem_of_closed [(⟨3⟩, ⟨6⟩), (⟨0⟩, ⟨0⟩), (⟨2⟩, ⟨5⟩), (⟨1⟩, ⟨4⟩)] (by decide)
      (by decide)
    simp only [mem_cons, Prod.mk.injEq, not_mem_nil, or_false] at hmem
    obtain ⟨rfl, rfl⟩ | ⟨rfl, rfl⟩ | ⟨rfl, rfl⟩ | ⟨rfl, rfl⟩ := hmem
    · cases hc
    · cases hc
    · cases hc
    · cases hc
      cases hd
      rfl
  refine ⟨hg, hsame, hplaces, ?_, hother, ?_⟩
  · have hschema := ((equals_types hg hsame).mpr hplaces _ _ .here).1
    exact ((Agree.iff_eq.mp hschema).1 _).mp (by rfl)
  · intro hsame'
    have htypes := ((equals_types hg hother).mpr hsame' _ _
      (.child (.child .here (.tail _ (.head _))) (.head _))).2
    have htype : pricedThrice.dataType ⟨7⟩ = .ok (.decimal 38 2) :=
      ((Agree.iff_eq.mp htypes).1 _).mp (by rfl)
    have hone : pricedThrice.dataType ⟨7⟩ = .ok (.decimal 38 1) := by rfl
    cases htype.symm.trans hone

end Graph

end RelSql
