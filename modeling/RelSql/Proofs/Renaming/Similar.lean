import Mathlib.Data.List.Forall2
import Mathlib.Order.Basic
import RelSql.Proofs.Graph.Children
import RelSql.Proofs.Graph.Extension

/-!
# Similar graphs

A relation between the handles of two graphs matches them when it is one-to-one and related
handles have the same operator on related children.  Graphs are similar along a relation that
matches them: what is defined by recursion on handles from the operators alone then is the
same, or related, on related handles.

Nodes are similar when they have one shape and their children are related, in order.  So a node is
made of its shape and its children, and nothing else of it has to be looked at.

A relation grows as nodes are added to both graphs, and all pairs stay related.
-/

namespace RelSql

open List Relator

/-- A relation between the handles of two graphs. -/
abbrev Matching := NodeId → NodeId → Prop

/-- A relation between the elements of lists holds when it does for the elements of both. -/
theorem forall₂_mem {α β : Type} {R S : α → β → Prop} {l : List α} {l' : List β}
    (h : Forall₂ R l l') :
  (∀ a ∈ l, ∀ b ∈ l', R a b → S a b) → Forall₂ S l l'
  := by
  induction h with
  | nil => exact fun _ => .nil
  | cons hab _ ih =>
      intro hS
      apply Forall₂.cons (hS _ mem_cons_self _ mem_cons_self hab)
      apply ih
      intro a ha b hb
      exact hS a (mem_cons_of_mem _ ha) b (mem_cons_of_mem _ hb)

/-- The first ones of related elements that satisfy a test are related, when the test says the
same of both. -/
theorem find?_related {α β : Type} {S : α → β → Prop} (p : α → Bool) (p' : β → Bool)
    {l : List α} {l' : List β} (hl : Forall₂ S l l') (hp : ∀ a b, S a b → p a = p' b) :
  Option.Rel S (l.find? p) (l'.find? p')
  := by
  induction hl with
  | nil => exact .none
  | @cons a b _ _ hab _ ih =>
      rw [find?_cons, find?_cons, hp a b hab]
      cases p' b with
      | true => exact .some hab
      | false => exact ih

theorem any_related {α β : Type} {S : α → β → Prop} (p : α → Bool) (p' : β → Bool)
    {l : List α} {l' : List β} (hl : Forall₂ S l l') (hp : ∀ a b, S a b → p a = p' b) :
  l.any p = l'.any p'
  := by
  induction hl with
  | nil => rfl
  | cons hab _ ih => rw [any_cons, any_cons, hp _ _ hab, ih]

/-- Related lists are both empty or both not. -/
theorem eq_nil_iff_of_related {α β : Type} {S : α → β → Prop} {l : List α} {l' : List β}
    (hl : Forall₂ S l l') :
  l = [] ↔ l' = []
  := by
  cases hl <;> simp

theorem isEmpty_related {α β : Type} {S : α → β → Prop} {l : List α} {l' : List β}
    (hl : Forall₂ S l l') :
  l.isEmpty = l'.isEmpty
  := by
  cases hl <;> rfl

/-- Options stay related when the relation grows. -/
theorem option_imp {α β : Type} {P Q : α → β → Prop} {x : Option α} {y : Option β}
    (h : Option.Rel P x y) (hPQ : ∀ a b, P a b → Q a b) :
  Option.Rel Q x y
  := by
  cases h with
  | some h => exact .some (hPQ _ _ h)
  | none => exact .none

/-- Related options are both there or both not. -/
theorem isSome_eq_of_related {α β : Type} {P : α → β → Prop} {x : Option α} {y : Option β}
    (h : Option.Rel P x y) :
  x.isSome = y.isSome
  := by
  cases h <;> rfl

/-- The same operator on related children. -/
inductive Node.Similar (R : Matching) : Node → Node → Prop where
  | table (t : Table) : Similar R (.table t) (.table t)
  | view {t t'} : R t t' → Similar R (.view t) (.view t')
  | projection {t t' l l'} : R t t' → Forall₂ R l l' →
    Similar R (.projection t l) (.projection t' l')
  | selection {t t' l l'} : R t t' → Forall₂ R l l' →
    Similar R (.selection t l) (.selection t' l')
  | aggregation {t t' ks ks' ms ms' hs hs'} : R t t' → Forall₂ R ks ks' → Forall₂ R ms ms' →
    Forall₂ R hs hs' → Similar R (.aggregation t ks ms hs) (.aggregation t' ks' ms' hs')
  | join (kind : JoinKind) {l l' r r' ps ps'} : R l l' → R r r' → Forall₂ R ps ps' →
    Similar R (.join kind l r ps) (.join kind l' r' ps')
  | sort {t t'} {ks ks' : List SortKey} : R t t' →
    Forall₂ (fun k k' => R k.expr k'.expr ∧ k.ascending = k'.ascending) ks ks' →
    Similar R (.sort t ks) (.sort t' ks')
  | limit {t t'} (n offset : Nat) : R t t' → Similar R (.limit t n offset) (.limit t' n offset)
  | distinct {t t'} : R t t' → Similar R (.distinct t) (.distinct t')
  | union {l l' r r'} (unique : Bool) : R l l' → R r r' →
    Similar R (.union l r unique) (.union l' r' unique)
  | literal (v : Value) : Similar R (.literal v) (.literal v)
  | interval (unit : TimeUnit) (count : Int) :
    Similar R (.interval unit count) (.interval unit count)
  | column {t t'} (name : String) : R t t' → Similar R (.column t name) (.column t' name)
  | named {a a'} (name : String) : R a a' → Similar R (.named a name) (.named a' name)
  | unary (op : UnaryOp) {a a'} : R a a' → Similar R (.unary op a) (.unary op a')
  | binary (op : BinaryOp) {l l' r r'} : R l l' → R r r' →
    Similar R (.binary op l r) (.binary op l' r')
  | call (function : Function) {l l'} : Forall₂ R l l' →
    Similar R (.call function l) (.call function l')
  | cast {a a'} (target : DataType) : R a a' → Similar R (.cast a target) (.cast a' target)
  | extract {a a'} (unit : TimeUnit) : R a a' → Similar R (.extract a unit) (.extract a' unit)
  | case {b b' d d'} {ws ws' : List (NodeId × NodeId)} : Option.Rel R b b' →
    Forall₂ (fun w w' => R w.1 w'.1 ∧ R w.2 w'.2) ws ws' → Option.Rel R d d' →
    Similar R (.case b ws d) (.case b' ws' d')
  | between {a a' b b' c c'} : R a a' → R b b' → R c c' →
    Similar R (.between a b c) (.between a' b' c')
  | list {a a' l l'} (negated : Bool) : R a a' → Forall₂ R l l' →
    Similar R (.contains a (.list l) negated) (.contains a' (.list l') negated)
  | membership {a a' c c'} (negated : Bool) : R a a' → R c c' →
    Similar R (.contains a (.column c) negated) (.contains a' (.column c') negated)
  | reduction (aggregate : Aggregate) {a a'} : R a a' →
    Similar R (.reduction aggregate a) (.reduction aggregate a')
  | countStar {t t'} : R t t' → Similar R (.countStar t) (.countStar t')
  | topK {a a' m m'} (k : Nat) : R a a' → Option.Rel R m m' →
    Similar R (.topK a k m) (.topK a' k m')
  | any {p p'} : R p p' → Similar R (.any p) (.any p')
  | exprList {l l'} : Forall₂ R l l' → Similar R (.exprList l) (.exprList l')

namespace Node.Similar

variable {R S : Matching} {n n' : Node}

/-- The children of similar nodes are related. -/
theorem children (h : Node.Similar R n n') :
  Forall₂ R n.children n'.children
  := by
  cases h with
  | table | literal | interval => exact .nil
  | view h | limit _ _ h | distinct h | column _ h | named _ h | unary _ h | cast _ h
  | extract _ h | reduction _ h | countStar h | any h => exact .cons h .nil
  | projection ht hl | selection ht hl | list _ ht hl => exact .cons ht hl
  | aggregation ht hk hm hh =>
      exact .cons ht (rel_append (rel_append hk hm) hh)
  | join _ hl hr hp => exact .cons hl (.cons hr hp)
  | sort ht hk => exact .cons ht (rel_map (fun _ _ h => h.1) hk)
  | union _ hl hr | binary _ hl hr | membership _ hl hr => exact .cons hl (.cons hr .nil)
  | call _ hl | exprList hl => exact hl
  | case hb hw hd =>
      apply rel_append (rel_append _ _)
      · cases hd with
        | some h => exact .cons h .nil
        | none => exact .nil
      · cases hb with
        | some h => exact .cons h .nil
        | none => exact .nil
      · exact rel_flatMap hw fun _ _ h => .cons h.1 (.cons h.2 .nil)
  | between ha hb hc => exact .cons ha (.cons hb (.cons hc .nil))
  | topK _ ha hm =>
      cases hm with
      | some h => exact .cons ha (.cons h .nil)
      | none => exact .cons ha .nil

/-- Similar nodes are both tables or both not. -/
theorem isRelation_eq (h : Node.Similar R n n') :
  n.isRelation = n'.isRelation
  := by
  cases h <;> rfl

/-- Replacing related children by the same handle makes similar nodes equal. -/
theorem shape_eq (h : Node.Similar R n n') :
  n.shape = n'.shape
  := by
  cases h with
  | table | literal | interval | view | limit | distinct | column | named | unary | cast | extract
  | reduction | countStar | any | union | binary | membership | between => rfl
  | projection _ hl | selection _ hl | list _ _ hl | call _ hl | exprList hl | join _ _ _ hl =>
      simp only [Node.shape, Node.mapChildren, Node.mapChildrenM, List.mapM_pure, pure_bind,
        List.map_const', hl.length_eq]
  | aggregation _ hk hm hh =>
      simp only [Node.shape, Node.mapChildren, Node.mapChildrenM, List.mapM_pure, pure_bind,
        List.map_const', hk.length_eq, hm.length_eq, hh.length_eq]
  | sort _ hk =>
      simp only [Node.shape, Node.mapChildren, Node.mapChildrenM, List.mapM_pure, pure_bind,
        Id.run_pure, Node.sort.injEq, true_and]
      induction hk with
      | nil => rfl
      | cons h _ ih => rw [map_cons, map_cons, h.2, ih]
  | topK _ _ hm => cases hm <;> rfl
  | case hb hw hd =>
      cases hb <;> cases hd <;>
        simp only [Node.shape, Node.mapChildren, Node.mapChildrenM, Node.mapOptionM, pure_bind,
          List.mapM_pure, List.map_const', hw.length_eq]

end Node.Similar

/-! ### Nodes of one shape -/

/-- Related lists that are made of two parts, the first ones of one length, are related part by
part. -/
theorem forall₂_of_append {α β : Type} {R : α → β → Prop} {l m : List α} {l' m' : List β}
    (hlength : l.length = l'.length) (h : Forall₂ R (l ++ m) (l' ++ m')) :
  Forall₂ R l l' ∧ Forall₂ R m m'
  := by
  constructor
  · have hfirst := forall₂_take_append _ _ _ h
    rwa [← hlength, take_left] at hfirst
  · have hsecond := forall₂_drop_append _ _ _ h
    rwa [← hlength, drop_left] at hsecond

/-- Lists that are related to each other, and to a third one, satisfy what follows from the three
relations of their elements. -/
theorem forall₂_over {α β γ : Type} {R U : α → β → Prop} {S : α → γ → Prop} {T : β → γ → Prop}
    {l : List α} {m : List β} {k : List γ} (hlk : Forall₂ S l k) (hmk : Forall₂ T m k)
    (hlm : Forall₂ R l m) (h : ∀ a b c, S a c → T b c → R a b → U a b) :
  Forall₂ U l m
  := by
  induction hlk generalizing m with
  | nil =>
      cases hlm
      exact .nil
  | cons hac _ ih =>
      cases hlm with
      | cons hab hlm =>
          cases hmk with
          | cons hbc hmk => exact .cons (h _ _ _ hac hbc hab) (ih hmk hlm)

/-- Options are related when the lists of what is there are. -/
theorem option_of_toList {α β : Type} {R : α → β → Prop} {x : Option α} {y : Option β}
    (h : Forall₂ R x.toList y.toList) :
  Option.Rel R x y
  := by
  cases x with
  | none =>
      cases y with
      | none => exact .none
      | some b => exact nomatch h
  | some a =>
      cases y with
      | none => exact nomatch h
      | some b => exact .some (forall₂_cons.mp h).1

theorem length_toList_eq {α β : Type} {R : α → β → Prop} {x : Option α} {y : Option β}
    (h : Option.Rel R x y) :
  x.toList.length = y.toList.length
  := by
  cases h <;> rfl

namespace Node

variable {P Q R S : Matching} {n m k : Node}

/-- A choice has two handles for each arm. -/
theorem length_flatMap_arms (ws : List (NodeId × NodeId)) :
  (ws.flatMap fun w => [w.1, w.2]).length = 2 * ws.length
  := by
  rw [length_flatMap]
  simp [Nat.mul_comm]

/-- Arms of a choice are related when their conditions and values are, in order. -/
theorem forall₂_arms {ws ws' : List (NodeId × NodeId)} (hlength : ws.length = ws'.length)
    (h : Forall₂ R (ws.flatMap fun w => [w.1, w.2]) (ws'.flatMap fun w => [w.1, w.2])) :
  Forall₂ (fun w w' => R w.1 w'.1 ∧ R w.2 w'.2) ws ws'
  := by
  induction ws generalizing ws' with
  | nil =>
      rw [eq_nil_of_length_eq_zero hlength.symm]
      exact .nil
  | cons w rest ih =>
      cases ws' with
      | nil => exact absurd hlength (Nat.succ_ne_zero _)
      | cons w' rest' =>
          cases h with
          | cons hcondition h =>
              cases h with
              | cons hvalue h =>
                  exact .cons ⟨hcondition, hvalue⟩ (ih (Nat.succ.inj hlength) h)

/-- Nodes that are both similar to one node have the same operator: they are similar when their
children are related. -/
theorem Similar.over (hn : Node.Similar P n k) (hm : Node.Similar Q m k)
    (h : Forall₂ R n.children m.children) :
  Node.Similar R n m
  := by
  cases hn with
  | table t => cases hm; exact .table t
  | literal v => cases hm; exact .literal v
  | interval unit count => cases hm; exact .interval unit count
  | view _ | limit _ _ _ | distinct _ | column _ _ | named _ _ | unary _ _ | cast _ _ | extract _ _
  | reduction _ _ | countStar _ | any _ =>
      cases hm
      constructor
      exact (forall₂_cons.mp h).1
  | projection _ _ | selection _ _ | list _ _ _ =>
      cases hm
      constructor
      · exact (forall₂_cons.mp h).1
      · exact (forall₂_cons.mp h).2
  | call _ _ => cases hm; exact .call _ h
  | exprList _ => cases hm; exact .exprList h
  | union _ _ _ | binary _ _ _ | membership _ _ _ =>
      cases hm
      obtain ⟨hl, h⟩ := forall₂_cons.mp h
      constructor
      · exact hl
      · exact (forall₂_cons.mp h).1
  | between _ _ _ =>
      cases hm
      obtain ⟨ha, h⟩ := forall₂_cons.mp h
      obtain ⟨hb, h⟩ := forall₂_cons.mp h
      exact .between ha hb (forall₂_cons.mp h).1
  | join kind _ _ _ =>
      cases hm
      obtain ⟨hl, h⟩ := forall₂_cons.mp h
      obtain ⟨hr, h⟩ := forall₂_cons.mp h
      exact .join kind hl hr h
  | aggregation _ hks hms _ =>
      cases hm with
      | aggregation _ hks' hms' _ =>
          obtain ⟨ht, h⟩ := forall₂_cons.mp h
          obtain ⟨h, hhs⟩ := forall₂_of_append (by
            rw [length_append, length_append, hks.length_eq, hms.length_eq, hks'.length_eq,
              hms'.length_eq]) h
          obtain ⟨hks, hms⟩ := forall₂_of_append (hks.length_eq.trans hks'.length_eq.symm) h
          exact .aggregation ht hks hms hhs
  | sort _ hks =>
      cases hm with
      | sort _ hks' =>
          obtain ⟨ht, h⟩ := forall₂_cons.mp h
          refine .sort ht ?_
          rw [forall₂_map_left_iff, forall₂_map_right_iff] at h
          apply forall₂_over hks hks' h
          rintro k k' _ ⟨_, hk⟩ ⟨_, hk'⟩ hkk'
          exact ⟨hkk', hk.trans hk'.symm⟩
  | topK k _ hm' =>
      cases hm with
      | topK _ _ hm =>
          obtain ⟨ha, h⟩ := forall₂_cons.mp h
          refine .topK k ha ?_
          cases hm' <;> cases hm
          · exact .some (forall₂_cons.mp h).1
          · exact .none
  | case hb hw hd =>
      cases hm with
      | case hb' hw' hd' =>
          have hwhens := hw.length_eq.trans hw'.length_eq.symm
          obtain ⟨h, hdefault⟩ := forall₂_of_append (by
            rw [length_append, length_append, length_toList_eq hb, length_toList_eq hb',
              length_flatMap_arms, length_flatMap_arms, hwhens]) h
          obtain ⟨hbase, harms⟩ := forall₂_of_append
            ((length_toList_eq hb).trans (length_toList_eq hb').symm) h
          exact .case (option_of_toList hbase) (forall₂_arms hwhens harms)
            (option_of_toList hdefault)

/-- The shape of a node is the same operator. -/
theorem similar_shape (n : Node) :
  Node.Similar (fun _ _ => True) n n.shape
  := by
  have hlist : ∀ l : List NodeId, Forall₂ (fun _ _ => True) l (l.map fun _ => (⟨0⟩ : NodeId)) := by
    intro l
    rw [forall₂_map_right_iff, forall₂_same]
    exact fun _ _ => trivial
  cases n with
  | table t => exact .table t
  | literal v => exact .literal v
  | interval unit count => exact .interval unit count
  | view _ | limit _ _ _ | distinct _ | column _ _ | named _ _ | unary _ _ | cast _ _ | extract _ _
  | reduction _ _ | countStar _ | any _ => constructor; trivial
  | union _ _ _ | binary _ _ _ | between _ _ _ => constructor <;> trivial
  | call _ l | exprList l =>
      simp only [shape, mapChildren, mapChildrenM, List.mapM_pure, pure_bind]
      constructor
      exact hlist l
  | projection _ l | selection _ l =>
      simp only [shape, mapChildren, mapChildrenM, List.mapM_pure, pure_bind]
      constructor
      · trivial
      · exact hlist l
  | join kind _ _ ps =>
      simp only [shape, mapChildren, mapChildrenM, List.mapM_pure, pure_bind]
      exact .join kind trivial trivial (hlist ps)
  | aggregation _ ks ms hs =>
      simp only [shape, mapChildren, mapChildrenM, List.mapM_pure, pure_bind]
      exact .aggregation trivial (hlist ks) (hlist ms) (hlist hs)
  | sort _ ks =>
      simp only [shape, mapChildren, mapChildrenM, List.mapM_pure, pure_bind]
      apply Similar.sort trivial
      rw [forall₂_map_right_iff, forall₂_same]
      exact fun _ _ => ⟨trivial, rfl⟩
  | contains _ options negated =>
      cases options with
      | list l =>
          simp only [shape, mapChildren, mapChildrenM, List.mapM_pure, pure_bind]
          exact .list negated trivial (hlist l)
      | column _ => exact .membership negated trivial trivial
  | topK _ k metric =>
      cases metric with
      | none => exact .topK k trivial .none
      | some _ => exact .topK k trivial (.some trivial)
  | case base whens default =>
      have hwhens : Forall₂ (fun _ _ => True ∧ True) whens
          (whens.map fun _ => ((⟨0⟩ : NodeId), (⟨0⟩ : NodeId))) := by
        rw [forall₂_map_right_iff, forall₂_same]
        exact fun _ _ => ⟨trivial, trivial⟩
      cases base <;> cases default <;>
        simp only [shape, mapChildren, mapChildrenM, mapOptionM, List.mapM_pure, pure_bind] <;>
        refine .case ?_ hwhens ?_ <;>
        first | exact .none | exact .some trivial

/-- Nodes of one shape have the same operator, with the same parameters. -/
theorem similar_of_shape (hshape : n.shape = m.shape) (h : Forall₂ R n.children m.children) :
  Node.Similar R n m
  := by
  have hn := similar_shape n
  rw [hshape] at hn
  exact hn.over (similar_shape m) h

namespace Similar

/-- Nodes stay similar when another relation holds between their children. -/
theorem imp (h : Node.Similar R n m) (hS : ∀ c ∈ n.children, ∀ d ∈ m.children, R c d → S c d) :
  Node.Similar S n m
  := similar_of_shape h.shape_eq (forall₂_mem h.children hS)

theorem mono (h : Node.Similar R n m) (hRS : R ≤ S) :
  Node.Similar S n m
  := h.imp fun c _ d _ hcd => hRS c d hcd

theorem symm (h : Node.Similar R n m) :
  Node.Similar (flip R) m n
  := similar_of_shape h.shape_eq.symm h.children.flip

end Similar

/-- Nodes with the same operator on the same children are the same. -/
theorem Similar.eq (h : Node.Similar (· = ·) n m) :
  n = m
  := by
  have hlist : ∀ {α : Type} {l l' : List α}, Forall₂ (· = ·) l l' → l = l' := by
    intro α l l' h
    rwa [forall₂_eq_eq_eq] at h
  have hoption : ∀ {x y : Option NodeId}, Option.Rel (· = ·) x y → x = y := by
    rintro _ _ (⟨rfl⟩ | _) <;> rfl
  cases h with
  | table | literal | interval => rfl
  | view h | limit _ _ h | distinct h | column _ h | named _ h | unary _ h | cast _ h
  | extract _ h | reduction _ h | countStar h | any h => rw [h]
  | union _ hl hr | binary _ hl hr | membership _ hl hr => rw [hl, hr]
  | between ha hb hc => rw [ha, hb, hc]
  | projection ht hl | selection ht hl | list _ ht hl => rw [ht, hlist hl]
  | call _ hl | exprList hl => rw [hlist hl]
  | join _ hl hr hp => rw [hl, hr, hlist hp]
  | aggregation ht hk hm hh =>
      rw [ht, hlist hk, hlist hm, hlist hh]
  | sort ht hk =>
      have hkey : ∀ k k' : SortKey, k.expr = k'.expr ∧ k.ascending = k'.ascending → k = k' := by
        rintro ⟨_, _⟩ ⟨_, _⟩ ⟨rfl, rfl⟩
        rfl
      rw [ht, hlist (hk.imp hkey)]
  | topK _ ha hm => rw [ha, hoption hm]
  | case hb hw hd =>
      have hwhens := hlist (hw.imp fun w w' h => Prod.ext h.1 h.2)
      rw [hoption hb, hwhens, hoption hd]

/-- A node is made of its shape and its children. -/
theorem eq_of_shape (hshape : n.shape = m.shape) (h : n.children = m.children) :
  n = m
  := by
  apply Similar.eq
  apply similar_of_shape hshape
  rw [h, forall₂_same]
  exact fun _ _ => rfl

/-- What has the shape of an existence test is one. -/
theorem any_of_shape {p : NodeId} (hshape : n.shape = m.shape) (hn : n = .any p) :
  ∃ q, m = .any q
  := by
  have hm := similar_shape m
  rw [← hshape, hn] at hm
  cases hm
  exact ⟨_, rfl⟩

/-- What an operator becomes when its handles are replaced has the same operator. -/
theorem similar_mapChildren (f : NodeId → NodeId) (n : Node) :
  Node.Similar (fun c d => c ∈ n.children ∧ d = f c) n (n.mapChildren f)
  := by
  apply similar_of_shape (n.shape_mapChildren f).symm
  rw [children_mapChildren, forall₂_map_right_iff, forall₂_same]
  exact fun c hc => ⟨hc, rfl⟩

end Node

/-- What is defined by recursion on handles is related on related handles when it is made of
what is related on smaller ones. -/
theorem NodeId.recurse_related {α β : Type} {R : Matching} {P : NodeId → NodeId → α → β → Prop}
    {bottom : NodeId → α} {bottom' : NodeId → β} {step : (NodeId → α) → NodeId → α}
    {step' : (NodeId → β) → NodeId → β}
    (hstep : ∀ below below' i j, R i j →
      (∀ c d, R c d → c.index < i.index → d.index < j.index → P c d (below c) (below' d)) →
      P i j (step below i) (step' below' j)) {i j : NodeId} (hij : R i j) :
  P i j (NodeId.recurse bottom step i) (NodeId.recurse bottom' step' j)
  := by
  obtain ⟨n⟩ := i
  induction n using Nat.strongRecOn generalizing j with
  | ind n ih =>
      apply hstep _ _ _ _ hij
      intro c d hcd hc hd
      rw [NodeId.valueIn_valuesBelow _ _ _ c hc, NodeId.valueIn_valuesBelow _ _ _ d hd]
      exact ih c.index hc hcd

/-- What is compared of two analyses: everything, so that they fail alike, or only what they give
when both succeed.  An existence test asks for rows of the tables that no block around it reads, so
there are none if the blocks around are not compared. -/
class Comparison where
  entire : Prop

namespace Graph

variable [Comparison]

/-- The relation matches handles of two well-founded graphs one-to-one, and related handles
have similar nodes. -/
structure Similar (R : Matching) (g g' : Graph) : Prop where
  wellFounded : g.WellFounded
  wellFounded' : g'.WellFounded
  biUnique : BiUnique R
  has : ∀ {i j}, R i j → g.Has i
  has' : ∀ {i j}, R i j → g'.Has j
  node : ∀ {i j}, R i j → Node.Similar R (g.node i) (g'.node j)
  tests : ∀ {i j p}, R i j → g.node i = .any p → Comparison.entire

namespace Similar

variable {R : Matching} {g g' : Graph} {i j k l : NodeId}

theorem symm (h : Similar R g g') :
  Similar (flip R) g' g
  := by
  refine ⟨h.wellFounded', h.wellFounded, ⟨fun _ _ _ hi hj => h.biUnique.2 hi hj,
    fun _ _ _ hi hj => h.biUnique.1 hi hj⟩, h.has', h.has, fun hij => (h.node hij).symm, ?_⟩
  intro i j p hij hp
  have hnn := h.node hij
  rw [hp] at hnn
  generalize hn : g.node j = n at hnn
  cases hnn
  exact h.tests hij hn

/-- Related handles are equal on one side when they are on the other. -/
theorem eq_iff (h : Similar R g g') (hij : R i j) (hkl : R k l) :
  i = k ↔ j = l
  := by
  constructor
  · intro heq
    subst heq
    exact h.biUnique.2 hij hkl
  · intro heq
    subst heq
    exact h.biUnique.1 hij hkl

/-- The nodes of related handles, one case for each operator. -/
theorem nodes (h : Similar R g g') (hij : R i j) :
  ∃ n n', g.node i = n ∧ g'.node j = n' ∧ Node.Similar R n n'
  := ⟨_, _, rfl, rfl, h.node hij⟩

/-- The children of related handles are related, and are smaller. -/
theorem children_below (h : Similar R g g') (hij : R i j) :
  Node.Similar (fun c d => R c d ∧ c.index < i.index ∧ d.index < j.index) (g.node i) (g'.node j)
  := by
  apply (h.node hij).imp
  intro c hc d hd hcd
  exact ⟨hcd, h.wellFounded.child_lt hc, h.wellFounded'.child_lt hd⟩

/-- What is defined by recursion on handles is related on related handles when it is made of
what is related on their children. -/
theorem recurse {α β : Type} (h : Similar R g g') {P : NodeId → NodeId → α → β → Prop}
    {bottom : NodeId → α} {bottom' : NodeId → β} {step : (NodeId → α) → NodeId → α}
    {step' : (NodeId → β) → NodeId → β}
    (hstep : ∀ below below' i j, R i j →
      Node.Similar (fun c d => R c d ∧ P c d (below c) (below' d)) (g.node i) (g'.node j) →
      P i j (step below i) (step' below' j)) (hij : R i j) :
  P i j (NodeId.recurse bottom step i) (NodeId.recurse bottom' step' j)
  := by
  apply NodeId.recurse_related _ hij
  intro below below' i j hij hbelow
  apply hstep below below' i j hij
  apply (h.children_below hij).mono
  rintro c d ⟨hcd, hc, hd⟩
  exact ⟨hcd, hbelow c d hcd hc hd⟩

end Similar

end Graph

end RelSql
