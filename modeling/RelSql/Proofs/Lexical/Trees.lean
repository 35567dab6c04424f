import Mathlib.Data.Set.Function
import RelSql.Proofs.Lexical.Layout

/-!
# Trees of phrases

The tree of a phrase is the phrase without the ways in which one value can be written as a
constant or by an operator: a sign in front of a constant is an operator, and so is the cast in a
constant that is cast.  The layout of a phrase and its tree can be taken in any order, and a
phrase that has no nested queries is told by its layout.
-/

namespace RelSql.Sql

open Text

theorem padBreaks_injective (x : List Char) :
  Function.Injective (padBreaks x)
  := by
  intro cs
  induction cs with
  | nil =>
      intro ds h
      cases ds with
      | nil => rfl
      | cons d ds =>
          rw [padBreaks_cons] at h
          split at h <;> cases h
  | cons c cs ih =>
      intro ds h
      cases ds with
      | nil =>
          rw [padBreaks_cons] at h
          split at h <;> cases h
      | cons d ds =>
          have hhead : c = d := by
            have hfirst := congrArg List.head? h
            rw [padBreaks_cons, padBreaks_cons] at hfirst
            split at hfirst <;> split at hfirst <;> exact Option.some.inj hfirst
          subst hhead
          rw [padBreaks_cons, padBreaks_cons] at h
          rw [ih (List.append_cancel_left h)]

namespace Phrase

/-- A phrase whose parts are changed by a function. -/
def mapParts (f : Phrase → Phrase) : Phrase → Phrase
  | .not p => .not (f p)
  | .negate p => .negate (f p)
  | .null p negated => .null (f p) negated
  | .binary op l r => .binary op (f l) (f r)
  | .call head arguments => .call head (arguments.map f)
  | .cast p target => .cast (f p) target
  | .extract p unit => .extract (f p) unit
  | .choice arms => .choice (arms.map fun a => (a.1, f a.2))
  | .between p low high => .between (f p) (f low) (f high)
  | .membership p negated values => .membership (f p) negated (values.map f)
  | .aggregate a p => .aggregate a (f p)
  | .memberOf p negated body => .memberOf (f p) negated body
  | p => p

variable {f g : Phrase → Phrase} {p q : Phrase}

attribute [local simp] parts mapParts

theorem rebuild_eq (f : Phrase → Phrase) (p : Phrase) :
  p.rebuild f = f (p.mapParts (rebuild f))
  := by
  cases p <;> simp [rebuild]

theorem parts_mapParts (f : Phrase → Phrase) (p : Phrase) :
  (p.mapParts f).parts = p.parts.map f
  := by
  cases p with
  | choice arms =>
      simp only [mapParts, parts, List.map_map]
      rfl
  | _ => simp

theorem mapParts_mapParts (f g : Phrase → Phrase) (p : Phrase) :
  (p.mapParts f).mapParts g = p.mapParts fun q => g (f q)
  := by
  cases p <;> simp [Function.comp_def]

theorem mapParts_congr (h : ∀ q ∈ p.parts, f q = g q) :
  p.mapParts f = p.mapParts g
  := by
  cases p with
  | call head arguments => exact congrArg (call head) (List.map_congr_left h)
  | choice arms =>
      refine congrArg choice (List.map_congr_left fun a ha => ?_)
      rw [h a.2 (List.mem_map_of_mem ha)]
  | membership p negated values =>
      simp only [mapParts]
      rw [h p List.mem_cons_self, List.map_congr_left fun v hv => h v (List.mem_cons_of_mem p hv)]
  | atom _ | negative _ | special _ | countStar | subquery _ | existence _ => rfl
  | _ =>
      simp only [parts, List.forall_mem_cons, List.not_mem_nil, false_imp_iff, implies_true,
        and_true] at h
      simp only [mapParts, h]

theorem mapParts_id (h : ∀ q ∈ p.parts, f q = q) :
  p.mapParts f = p
  := by
  rw [mapParts_congr (g := fun q => q) h]
  cases p <;> simp

/-- A phrase is told by its changed parts, if they are told from others. -/
theorem eq_of_mapParts_eq (hparts : ∀ a ∈ p.parts, ∀ b ∈ q.parts, f a = f b → a = b)
    (h : p.mapParts f = q.mapParts f) :
  p = q
  := by
  have hmap : p.parts.map f = q.parts.map f := by
    rw [← parts_mapParts, h, parts_mapParts]
  have hshared : ∀ a ∈ p.parts, ∃ b ∈ q.parts, f b = f a := fun a ha =>
    List.mem_map.mp (hmap ▸ List.mem_map_of_mem ha)
  -- the parts of both are got back by choosing among those of the first
  have : Nonempty Phrase := ⟨p⟩
  let back := Function.invFunOn f {a | a ∈ p.parts}
  have hback : ∀ a ∈ p.parts, back (f a) ∈ p.parts ∧ f (back (f a)) = f a := fun a ha =>
    ⟨Function.invFunOn_mem (s := {a | a ∈ p.parts}) ⟨a, ha, rfl⟩,
      Function.invFunOn_eq (s := {a | a ∈ p.parts}) ⟨a, ha, rfl⟩⟩
  have hleft : ∀ a ∈ p.parts, back (f a) = a := by
    intro a ha
    obtain ⟨b, hb, hab⟩ := hshared a ha
    obtain ⟨hmem, heq⟩ := hback a ha
    exact (hparts _ hmem b hb (heq.trans hab.symm)).trans (hparts a ha b hb hab.symm).symm
  have hright : ∀ b ∈ q.parts, back (f b) = b := by
    intro b hb
    obtain ⟨a, ha, hab⟩ := List.mem_map.mp (hmap ▸ List.mem_map_of_mem (f := f) hb)
    rw [← hab, hleft a ha]
    exact hparts a ha b hb hab
  calc
    p = (p.mapParts f).mapParts back := by rw [mapParts_mapParts, mapParts_id hleft]
    _ = (q.mapParts f).mapParts back := by rw [h]
    _ = q := by rw [mapParts_mapParts, mapParts_id hright]

/-! ### Layout -/

/-- Whether a phrase is no nested query and no aggregate, apart from its parts. -/
def isElementary : Phrase → Bool
  | .aggregate _ _ | .countStar | .subquery _ | .existence _ | .memberOf _ _ _ => false
  | _ => true

/-- A phrase in which no query is nested and nothing is aggregated. -/
def Elementary : Phrase → Prop :=
  All fun p => p.isElementary

/-- The steps by which a phrase is laid out: they change words, and the parts of cases. -/
inductive Lays : (Phrase → Phrase) → Prop where
  | pad (x : List Char) : Lays (padWord x)
  | choice : Lays layChoice

theorem isElementary_rebuild (hf : Lays f) (p : Phrase) :
  (p.rebuild f).isElementary = p.isElementary
  := by
  cases hf <;> cases p <;> simp only [rebuild, padWord, layChoice] <;> rfl

theorem mem_separated {ks : List Token} {parts : List (List Token)} {t : Token}
    (h : t ∈ separated ks parts) :
  t ∈ ks ∨ ∃ ts ∈ parts, t ∈ ts
  := by
  fun_induction separated ks parts with
  | case1 => cases h
  | case2 ts => exact .inr ⟨ts, List.mem_singleton_self ts, h⟩
  | case3 ts rest _ ih =>
      rcases List.mem_append.mp h with h | h
      · rcases List.mem_append.mp h with h | h
        · exact .inr ⟨ts, List.mem_cons_self, h⟩
        · exact .inl h
      · rcases ih h with h | ⟨us, hus, ht⟩
        · exact .inl h
        · exact .inr ⟨us, List.mem_cons_of_mem ts hus, ht⟩

/-- What holds of words and signs, and of groups of what it holds of and commas. -/
structure Regular (P : Token → Prop) : Prop where
  keyword : ∀ k, P (.keyword k)
  word : ∀ cs, P (.word cs)
  minus : P .minus
  group : ∀ ts, (∀ t ∈ ts, P t ∨ t = .comma) → P (.group ts)

namespace Regular

variable {P : Token → Prop} (hP : Regular P)

include hP

theorem ofWord (cs : List Char) :
  P (.ofWord cs)
  := by
  rw [Token.ofWord]
  split
  · exact hP.keyword _
  · exact hP.word _

theorem operator (op : BinaryOp) :
  P (operator op)
  := by
  cases op <;> first | exact hP.minus | exact hP.keyword _ | exact hP.word _

/-- The tokens of several phrases between commas. -/
theorem list {ps : List Phrase} (h : ∀ q ∈ ps, ∀ t ∈ q.tokens, P t) :
  P (.group (separated [.comma] (ps.map tokens)))
  := by
  refine hP.group _ fun t ht => ?_
  rcases mem_separated ht with ht | ⟨ts, hts, ht⟩
  · exact .inr (List.mem_singleton.mp ht)
  · obtain ⟨q, hq, rfl⟩ := List.mem_map.mp hts
    exact .inl (h q hq t ht)

theorem enclose {q : Phrase} (h : ∀ t ∈ q.tokens, P t) :
  ∀ t ∈ q.enclose q.tokens, P t
  := by
  rw [Phrase.enclose]
  split
  · exact List.forall_mem_singleton.mpr (hP.group _ fun t ht => .inl (h t ht))
  · exact h

theorem nullTokens (negated : Bool) :
  ∀ t ∈ nullTokens negated, P t
  := by cases negated <;> simp [Sql.nullTokens, hP.keyword]

theorem membershipTokens (negated : Bool) :
  ∀ t ∈ membershipTokens negated, P t
  := by cases negated <;> simp [Sql.membershipTokens, hP.keyword]

theorem armTokens (arm : Arm) :
  ∀ t ∈ arm.tokens, P t
  := by cases arm <;> simp [Arm.tokens, hP.keyword]

theorem typeTokens (target : DataType) :
  ∀ t ∈ typeTokens target, P t
  := by
  cases target with
  | decimal precision scale =>
      simp only [Sql.typeTokens, List.forall_mem_cons]
      refine ⟨hP.word _, hP.group _ ?_, List.forall_mem_nil _⟩
      simp only [List.forall_mem_cons]
      exact ⟨.inl (hP.ofWord _), .inr trivial, .inl (hP.ofWord _), List.forall_mem_nil _⟩
  | _ => exact List.forall_mem_singleton.mpr (hP.ofWord _)

end Regular

/-- What holds of words, signs and groups holds of all tokens of a phrase. -/
theorem forall_mem_tokens {P : Token → Prop} (hP : Regular P) (h : p.Elementary) :
  ∀ t ∈ p.tokens, P t
  := by
  induction p using induction with
  | h p ih =>
      have hpart : ∀ q ∈ p.parts, ∀ t ∈ q.tokens, P t := fun q hq => ih q hq (h.part hq)
      have henclose : ∀ q ∈ p.parts, ∀ t ∈ q.enclose q.tokens, P t := fun q hq =>
        hP.enclose (hpart q hq)
      clear ih
      cases p with
      | atom cs =>
          simp only [tokens, List.forall_mem_singleton]
          exact hP.ofWord cs
      | negative cs =>
          simp only [tokens, List.forall_mem_cons]
          exact ⟨hP.minus, hP.ofWord cs, List.forall_mem_nil _⟩
      | special name =>
          simp only [tokens, List.forall_mem_cons]
          refine ⟨hP.keyword _, hP.group _ ?_, List.forall_mem_nil _⟩
          simp only [List.forall_mem_cons]
          exact ⟨.inl (hP.word _), .inl (hP.keyword _), .inl (hP.word _), List.forall_mem_nil _⟩
      | not q =>
          simp only [tokens, List.forall_mem_cons]
          exact ⟨hP.keyword _, henclose q List.mem_cons_self⟩
      | negate q =>
          simp only [tokens, List.forall_mem_cons]
          exact ⟨hP.minus, henclose q List.mem_cons_self⟩
      | null q negated =>
          simp only [tokens, List.forall_mem_append]
          exact ⟨henclose q List.mem_cons_self, hP.nullTokens negated⟩
      | binary op l r =>
          simp only [tokens, List.forall_mem_append, List.forall_mem_singleton]
          exact ⟨⟨henclose l List.mem_cons_self, hP.operator op⟩,
            henclose r (List.mem_cons_of_mem _ List.mem_cons_self)⟩
      | call head arguments =>
          simp only [tokens, List.forall_mem_cons]
          exact ⟨hP.word _, hP.list hpart, List.forall_mem_nil _⟩
      | cast q target =>
          simp only [tokens, List.forall_mem_cons]
          refine ⟨hP.keyword _, hP.group _ fun t ht => .inl ?_, List.forall_mem_nil _⟩
          revert t
          simp only [List.forall_mem_append, List.forall_mem_singleton]
          exact ⟨⟨hpart q List.mem_cons_self, hP.keyword _⟩, hP.typeTokens target⟩
      | extract q unit =>
          simp only [tokens, List.forall_mem_cons]
          refine ⟨hP.word _, hP.group _ ?_, List.forall_mem_nil _⟩
          simp only [List.forall_mem_append, List.forall_mem_singleton]
          exact ⟨⟨fun t ht => .inl (hpart q List.mem_cons_self t ht), .inr trivial⟩,
            .inl (hP.word _)⟩
      | choice arms =>
          simp only [tokens, List.forall_mem_append, List.forall_mem_singleton]
          refine ⟨⟨hP.keyword _, fun t ht => ?_⟩, hP.keyword _⟩
          obtain ⟨a, ha, ht⟩ := List.mem_flatMap.mp ht
          rcases List.mem_append.mp ht with ht | ht
          · exact hP.armTokens a.1 t ht
          · exact hpart a.2 (List.mem_map_of_mem ha) t ht
      | between q low high =>
          have hlow := hpart low (List.mem_cons_of_mem _ List.mem_cons_self)
          have hhigh := hpart high (List.mem_cons_of_mem _ (List.mem_cons_of_mem _ List.mem_cons_self))
          simp only [tokens, List.forall_mem_append, List.forall_mem_singleton]
          exact ⟨⟨⟨⟨henclose q List.mem_cons_self, hP.keyword _⟩, hlow⟩, hP.keyword _⟩, hhigh⟩
      | membership q negated values =>
          simp only [tokens, List.forall_mem_append, List.forall_mem_singleton]
          exact ⟨⟨henclose q List.mem_cons_self, hP.membershipTokens negated⟩,
            hP.list fun v hv => hpart v (List.mem_cons_of_mem q hv)⟩
      | aggregate _ _ | countStar | subquery _ | existence _ | memberOf _ _ _ => cases h.here

theorem padWord_mapParts (x : List Char) (f : Phrase → Phrase) (p : Phrase) :
  padWord x (p.mapParts f) = (padWord x p).mapParts f
  := by
  cases p <;> simp only [padWord, mapParts]

theorem pad_eq (x : List Char) (p : Phrase) :
  p.pad x = padWord x (p.mapParts (pad x))
  := rebuild_eq (padWord x) p

theorem laidOut_eq (p : Phrase) :
  p.laidOut = layChoice (p.mapParts laidOut)
  := rebuild_eq layChoice p

/-- A phrase without parts whose words are changed. -/
def mapWord (f : List Char → List Char) : Phrase → Phrase
  | .atom cs => .atom (f cs)
  | .negative cs => .negative (f cs)
  | .special name => .special (f name)
  | p => p

theorem padWord_injective (x : List Char) (hp : p.isElementary) (hq : q.isElementary)
    (h : padWord x p = padWord x q) :
  p = q
  := by
  obtain ⟨back, hback⟩ := (padBreaks_injective x).hasLeftInverse
  have hleft : ∀ {p : Phrase}, p.isElementary → (padWord x p).mapWord back = p := by
    intro p hp
    cases p with
    | atom cs | negative cs | special cs => simp only [padWord, mapWord, hback cs]
    | aggregate _ _ | countStar | subquery _ | existence _ | memberOf _ _ _ => cases hp
    | _ => rfl
  rw [← hleft hp, h, hleft hq]

theorem pad_injective (x : List Char) (hp : p.Elementary) (hq : q.Elementary)
    (h : p.pad x = q.pad x) :
  p = q
  := by
  induction p using induction generalizing q with
  | h p ih =>
      rw [pad_eq, pad_eq x q] at h
      have hshape : ∀ {p : Phrase}, p.isElementary → (p.mapParts (pad x)).isElementary := by
        intro p hp
        cases p <;> exact hp
      exact eq_of_mapParts_eq (fun a ha b hb => ih a ha (hp.part ha) (hq.part hb))
        (padWord_injective x (hshape hp.here) (hshape hq.here) h)

theorem fst_layArms (arms : List (Arm × Phrase)) :
  (layArms arms).map Prod.fst = arms.map Prod.fst
  := by
  rw [layArms]
  split
  · rw [List.map_map]
    refine List.map_congr_left fun a _ => ?_
    rw [Function.comp_apply]
    split <;> rfl
  · rfl

theorem countP_fst (arms : List (Arm × Phrase)) :
  arms.countP (fun a => a.1 = .condition) = (arms.map Prod.fst).countP (· = .condition)
  := by
  rw [List.countP_map]
  rfl

/-- A branch that is indented is told by its text. -/
theorem padArm_injective {a b : Arm × Phrase} (ha : a.2.Elementary) (hb : b.2.Elementary)
    (h : (if a.1 = .base then a else (a.1, a.2.pad branchPad))
      = if b.1 = .base then b else (b.1, b.2.pad branchPad)) :
  a = b
  := by
  have harm : a.1 = b.1 := by
    have hfst := congrArg Prod.fst h
    split at hfst <;> split at hfst <;> exact hfst
  rw [harm] at h
  split at h
  · exact h
  · exact Prod.ext harm (pad_injective branchPad ha hb (Prod.mk.inj h).2)

theorem layArms_injective {arms others : List (Arm × Phrase)} (harms : ∀ a ∈ arms, a.2.Elementary)
    (hothers : ∀ a ∈ others, a.2.Elementary) (h : layArms arms = layArms others) :
  arms = others
  := by
  have hcount : arms.countP (fun a => a.1 = .condition) = others.countP (fun a => a.1 = .condition) := by
    rw [countP_fst, countP_fst, ← fst_layArms, ← fst_layArms others, h]
  rw [layArms, layArms, hcount] at h
  split at h
  case isFalse => exact h
  case isTrue hmany =>
      clear hcount hmany
      induction arms generalizing others with
      | nil => exact (List.map_eq_nil_iff.mp h.symm).symm
      | cons a arms ih =>
          cases others with
          | nil => cases h
          | cons b others =>
              rw [List.forall_mem_cons] at harms hothers
              rw [List.map_cons, List.map_cons, List.cons.injEq] at h
              rw [padArm_injective harms.1 hothers.1 h.1, ih harms.2 hothers.2 h.2]

/-- Whether a phrase is a case. -/
def isChoice : Phrase → Bool
  | .choice _ => true
  | _ => false

theorem isChoice_layChoice (p : Phrase) :
  (layChoice p).isChoice = p.isChoice
  := by
  cases p <;> rfl

theorem layChoice_of_not_isChoice (h : p.isChoice = false) :
  layChoice p = p
  := by
  cases p <;> first | rfl | cases h

theorem layChoice_injective (hp : ∀ a ∈ p.parts, a.Elementary) (hq : ∀ a ∈ q.parts, a.Elementary)
    (h : layChoice p = layChoice q) :
  p = q
  := by
  have hchoice : p.isChoice = q.isChoice := by
    rw [← isChoice_layChoice, h, isChoice_layChoice]
  cases hshape : p.isChoice with
  | false => rwa [layChoice_of_not_isChoice hshape, layChoice_of_not_isChoice (hchoice ▸ hshape)] at h
  | true =>
      have harms : ∀ {r : Phrase}, r.isChoice → ∃ arms, r = choice arms := by
        intro r hr
        cases r <;> first | exact ⟨_, rfl⟩ | cases hr
      obtain ⟨arms, rfl⟩ := harms hshape
      obtain ⟨others, rfl⟩ := harms (hchoice ▸ hshape)
      rw [layArms_injective (fun a ha => hp a.2 (List.mem_map_of_mem ha))
        (fun a ha => hq a.2 (List.mem_map_of_mem ha)) (choice.inj h)]

theorem Elementary.laidOut (h : p.Elementary) :
  p.laidOut.Elementary
  := all_laidOut (fun p hp => (isElementary_rebuild (.pad branchPad) p).trans hp)
    (fun p hp => (isElementary_rebuild .choice p).trans hp) h

/-- A phrase is told by its layout. -/
theorem laidOut_injective (hp : p.Elementary) (hq : q.Elementary) (h : p.laidOut = q.laidOut) :
  p = q
  := by
  induction p using induction generalizing q with
  | h p ih =>
      have hparts : ∀ {p : Phrase}, p.Elementary → ∀ a ∈ (p.mapParts Phrase.laidOut).parts,
          a.Elementary := by
        intro p hp
        rw [parts_mapParts]
        exact List.forall_mem_map.mpr fun a ha => Elementary.laidOut (hp.part ha)
      rw [laidOut_eq, laidOut_eq q] at h
      exact eq_of_mapParts_eq (fun a ha b hb => ih a ha (hp.part ha) (hq.part hb))
        (layChoice_injective (hparts hp) (hparts hq) h)

/-! ### Trees -/

/-- A constant by the operators in it. -/
def spellOut : Phrase → Phrase
  | .negative cs => .negate (.atom cs)
  | .special name => .cast (.atom name) .double
  | p => p

/-- The operator tree of a phrase: a sign in front of a constant is an operator, and a constant
that is cast is a cast. -/
def tree : Phrase → Phrase :=
  rebuild spellOut

theorem tree_eq (p : Phrase) :
  p.tree = spellOut (p.mapParts tree)
  := rebuild_eq spellOut p

theorem pad_spellOut (x : List Char) (p : Phrase) :
  (spellOut p).pad x = spellOut (p.pad x)
  := by
  cases p <;> simp only [spellOut, pad, rebuild, padWord]

theorem laidOut_spellOut (p : Phrase) :
  (spellOut p).laidOut = spellOut p.laidOut
  := by
  cases p <;> simp only [spellOut, laidOut, rebuild, layChoice]

theorem tree_pad (x : List Char) (p : Phrase) :
  (p.pad x).tree = p.tree.pad x
  := by
  induction p using induction with
  | h p ih =>
      rw [tree_eq, tree_eq p, pad_spellOut, pad_eq, pad_eq, ← padWord_mapParts, mapParts_mapParts,
        mapParts_mapParts, mapParts_congr ih]

theorem layArms_map {f : Phrase → Phrase} (hf : ∀ p : Phrase, f (p.pad branchPad) = (f p).pad branchPad)
    (arms : List (Arm × Phrase)) :
  layArms (arms.map fun a => (a.1, f a.2)) = (layArms arms).map fun a => (a.1, f a.2)
  := by
  have hcount : (arms.map fun a => (a.1, f a.2)).countP (fun a => a.1 = .condition)
      = arms.countP (fun a => a.1 = .condition) := by
    rw [List.countP_map]
    rfl
  rw [layArms, layArms, hcount]
  split
  · rw [List.map_map, List.map_map]
    refine List.map_congr_left fun a _ => ?_
    simp only [Function.comp_apply]
    split
    · rfl
    · rw [hf]
  · rfl

theorem layChoice_mapParts {f : Phrase → Phrase}
    (hf : ∀ p : Phrase, f (p.pad branchPad) = (f p).pad branchPad) (p : Phrase) :
  layChoice (p.mapParts f) = (layChoice p).mapParts f
  := by
  cases p with
  | choice arms => exact congrArg choice (layArms_map hf arms)
  | _ => rfl

theorem tree_laidOut (p : Phrase) :
  p.laidOut.tree = p.tree.laidOut
  := by
  induction p using induction with
  | h p ih =>
      rw [tree_eq, tree_eq p, laidOut_spellOut, laidOut_eq, laidOut_eq,
        ← layChoice_mapParts (tree_pad branchPad), mapParts_mapParts, mapParts_mapParts,
        mapParts_congr ih]

theorem Elementary.tree (h : p.Elementary) :
  p.tree.Elementary
  := by
  have hatom : ∀ cs, (atom cs).Elementary := by
    intro cs
    rw [Elementary, All]
    exact ⟨rfl, List.forall_mem_nil _⟩
  induction p using induction with
  | h p ih =>
      have hparts : ∀ q ∈ (p.mapParts Phrase.tree).parts, q.Elementary := by
        rw [parts_mapParts]
        exact List.forall_mem_map.mpr fun q hq => ih q hq (h.part hq)
      have hhere : p.isElementary := h.here
      rw [tree_eq, Elementary, All]
      cases p with
      | negative cs | special cs => exact ⟨rfl, List.forall_mem_singleton.mpr (hatom cs)⟩
      | _ => exact ⟨hhere, hparts⟩

/-- The tree of a phrase is told by that of its layout. -/
theorem tree_eq_of_laidOut (hp : p.Elementary) (hq : q.Elementary) (h : p.laidOut.tree = q.laidOut.tree) :
  p.tree = q.tree
  := by
  rw [tree_laidOut, tree_laidOut] at h
  exact laidOut_injective hp.tree hq.tree h

end Phrase

end RelSql.Sql
