import RelSql.Proofs.Lexical.Phrase
import RelSql.Proofs.Qualification.Reading

/-!
# Phrases of values

A value is written as a phrase, by the operators of its node.  `Forms` lists the phrases that
there are, with the values that their parts are the phrases of; what holds of each of them,
given its parts, holds throughout the phrases of values.
-/

namespace RelSql

open Text Sql

namespace Sql.Phrase

/-- Two properties of all phrases in a phrase. -/
theorem All.and {P Q : Phrase → Prop} {p : Phrase} (hp : p.All P) (hq : p.All Q) :
  p.All fun p => P p ∧ Q p
  := by
  induction p using Phrase.induction with
  | h p ih =>
      rw [All]
      exact ⟨⟨hp.here, hq.here⟩, fun q hmem => ih q hmem (hp.part hmem) (hq.part hmem)⟩

theorem All.imp {P Q : Phrase → Prop} (h : ∀ p, P p → Q p) {p : Phrase} (hp : p.All P) :
  p.All Q
  := by
  induction p using Phrase.induction with
  | h p ih =>
      rw [All]
      exact ⟨h p hp.here, fun q hmem => ih q hmem (hp.part hmem)⟩

/-- A text has a sign or stands for itself. -/
theorem signed_cases (cs : List Char) :
  (∃ ds, cs = '-' :: ds ∧ signed cs = .negative ds)
    ∨ (cs.head? ≠ some '-' ∧ signed cs = .atom cs)
  := by
  unfold Phrase.signed
  split
  case h_1 ds => exact .inl ⟨ds, rfl, rfl⟩
  case h_2 hother =>
      refine .inr ⟨?_, rfl⟩
      intro hhead
      obtain ⟨ds, rfl⟩ := List.head?_eq_some_iff.mp hhead
      exact hother ds rfl

/-- What holds of all words, with a sign or without, holds of a text. -/
theorem of_signed {P : Phrase → Prop} (hatom : ∀ cs, P (.atom cs)) (hnegative : ∀ cs, P (.negative cs))
    (cs : List Char) :
  P (signed cs)
  := by
  rcases signed_cases cs with ⟨_, _, h⟩ | ⟨_, h⟩
  · rw [h]
    exact hnegative _
  · rw [h]
    exact hatom _

end Sql.Phrase

namespace Render

/-- The phrase of a constant. -/
def literalPhrase (value : Value) : Phrase :=
  match value with
  | .float x =>
    if x.isNaN then .special "'nan'".toList
    else if x.isInfinite then .special (if x.negative then "'-inf'" else "'inf'").toList
    else .signed (x.text Value.doubleLayout).toList
  | value => .signed (literal value).toList

namespace View

/-- The tokens of a nested query, between its parentheses. -/
def bodyTokens? (v : View) (s : Nested Delayed) : Option (List Token) :=
  match s.query () with
  | .ok text => tokens? ("\n" ++ indent v.options.indent text ++ "\n")
  | .error _ => none

/-- The phrase of a value that no subquery stands for. -/
def plainPhrase (v : View) (below : NodeId → Option Phrase) (id : NodeId) : Option Phrase :=
  let operand := fun id => below (v.graph.unaliased id)
  match v.graph.node id with
  | .literal value => some (literalPhrase value)
  | .column t name =>
    match v.column t name with
    | .ok text => some (.atom text.toList)
    | .error _ => none
  | .named arg _ => below arg
  | .unary .not arg => do return .not (← operand arg)
  | .unary .negate arg => do return .negate (← operand arg)
  | .unary .isNull arg => do return .null (← operand arg) false
  | .unary .notNull arg => do return .null (← operand arg) true
  | .binary op l r =>
    match v.graph.node r with
    | .interval unit count =>
      if op = .add ∨ op = .sub then do
        return .call (.shift unit (op = .sub))
          [← below l, .signed (Value.integerText count).toList]
      else none
    | _ =>
      if op = .pow then do return .call .power [← below l, ← below r]
      else do return .binary op (← operand l) (← operand r)
  | .call function arguments => do return .call (.function function) (← arguments.mapM below)
  | .cast arg target => do return .cast (← below arg) target
  | .extract arg unit => do return .extract (← below arg) unit
  | .case base whens default => do
    let base ← base.toList.mapM below
    let branches ← whens.mapM fun w => do return (← below w.1, ← below w.2)
    let default ← default.toList.mapM below
    return .choice (base.map (Prod.mk .base)
      ++ (branches.flatMap fun b => [(.condition, b.1), (.result, b.2)])
      ++ default.map (Prod.mk .default))
  | .between arg low high => do return .between (← operand arg) (← below low) (← below high)
  | .contains arg (.list values) negated => do
    return .membership (← operand arg) negated (← values.mapM below)
  | .reduction aggregate arg => do return .aggregate aggregate (← below arg)
  | .countStar _ => some .countStar
  | _ => none

/-- The phrase of a value, given those of smaller values. -/
def phraseStep (v : View) (below : NodeId → Option Phrase) (id : NodeId) : Option Phrase :=
  match nestedFor? v.nested id with
  | none => v.plainPhrase below id
  | some s => do
    let body ← v.bodyTokens? s
    match s.kind with
    | .scalar => return .subquery body
    | .exists => return .existence body
    | .membership =>
      match v.graph.node id with
      | .contains arg _ negated =>
        return .memberOf (← below (v.graph.unaliased arg)) negated body
      | _ => none
    | .table => none

/-- The phrase of a value: the operators and words that it is written with. -/
def phrase (v : View) : NodeId → Option Phrase :=
  NodeId.recurse (fun _ => none) v.phraseStep

/-- The phrases that a value is written as, if no subquery stands for it. -/
inductive PlainForms (v : View) (below : NodeId → Option Phrase) (id : NodeId) : Phrase → Prop where
  | literal {value : Value} (hn : v.graph.node id = .literal value) :
    PlainForms v below id (literalPhrase value)
  | column {t : NodeId} {name text : String} (hn : v.graph.node id = .column t name)
      (htext : v.column t name = .ok text) : PlainForms v below id (.atom text.toList)
  | named {arg : NodeId} {name : String} {p : Phrase} (hn : v.graph.node id = .named arg name)
      (hp : below arg = some p) : PlainForms v below id p
  | not {arg : NodeId} {p : Phrase} (hn : v.graph.node id = .unary .not arg)
      (hp : below (v.graph.unaliased arg) = some p) : PlainForms v below id (.not p)
  | negate {arg : NodeId} {p : Phrase} (hn : v.graph.node id = .unary .negate arg)
      (hp : below (v.graph.unaliased arg) = some p) : PlainForms v below id (.negate p)
  | null {arg : NodeId} {p : Phrase} {negated : Bool}
      (hn : v.graph.node id = .unary (if negated then .notNull else .isNull) arg)
      (hp : below (v.graph.unaliased arg) = some p) : PlainForms v below id (.null p negated)
  | shift {op : BinaryOp} {l r : NodeId} {unit : TimeUnit} {count : Int} {p : Phrase}
      (hn : v.graph.node id = .binary op l r) (hr : v.graph.node r = .interval unit count)
      (hop : op = .add ∨ op = .sub) (hp : below l = some p) :
    PlainForms v below id
      (.call (.shift unit (op = .sub)) [p, .signed (Value.integerText count).toList])
  | power {l r : NodeId} {p q : Phrase} (hn : v.graph.node id = .binary .pow l r)
      (hr : ∀ unit count, v.graph.node r ≠ .interval unit count) (hp : below l = some p)
      (hq : below r = some q) : PlainForms v below id (.call .power [p, q])
  | operator {op : BinaryOp} {l r : NodeId} {p q : Phrase} (hn : v.graph.node id = .binary op l r)
      (hr : ∀ unit count, v.graph.node r ≠ .interval unit count) (hop : op ≠ .pow)
      (hp : below (v.graph.unaliased l) = some p) (hq : below (v.graph.unaliased r) = some q) :
    PlainForms v below id (.binary op p q)
  | call {f : Function} {arguments : List NodeId} {ps : List Phrase}
      (hn : v.graph.node id = .call f arguments) (hps : arguments.mapM below = some ps) :
    PlainForms v below id (.call (.function f) ps)
  | cast {arg : NodeId} {target : DataType} {p : Phrase} (hn : v.graph.node id = .cast arg target)
      (hp : below arg = some p) : PlainForms v below id (.cast p target)
  | extract {arg : NodeId} {unit : TimeUnit} {p : Phrase} (hn : v.graph.node id = .extract arg unit)
      (hp : below arg = some p) : PlainForms v below id (.extract p unit)
  | choice {base default : Option NodeId} {whens : List (NodeId × NodeId)}
      {bases defaults : List Phrase} {branches : List (Phrase × Phrase)}
      (hn : v.graph.node id = .case base whens default)
      (hbases : base.toList.mapM below = some bases)
      (hbranches : (whens.mapM fun w => do return (← below w.1, ← below w.2)) = some branches)
      (hdefaults : default.toList.mapM below = some defaults) :
    PlainForms v below id (.choice (bases.map (Prod.mk .base)
      ++ (branches.flatMap fun b => [(.condition, b.1), (.result, b.2)])
      ++ defaults.map (Prod.mk .default)))
  | between {arg low high : NodeId} {p lower upper : Phrase}
      (hn : v.graph.node id = .between arg low high)
      (hp : below (v.graph.unaliased arg) = some p) (hlow : below low = some lower)
      (hhigh : below high = some upper) : PlainForms v below id (.between p lower upper)
  | membership {arg : NodeId} {values : List NodeId} {negated : Bool} {p : Phrase}
      {ps : List Phrase} (hn : v.graph.node id = .contains arg (.list values) negated)
      (hp : below (v.graph.unaliased arg) = some p) (hps : values.mapM below = some ps) :
    PlainForms v below id (.membership p negated ps)
  | aggregate {a : Aggregate} {arg : NodeId} {p : Phrase} (hn : v.graph.node id = .reduction a arg)
      (hp : below arg = some p) : PlainForms v below id (.aggregate a p)
  | countStar {t : NodeId} (hn : v.graph.node id = .countStar t) : PlainForms v below id .countStar

/-- The phrases that a value is written as. -/
inductive Forms (v : View) (below : NodeId → Option Phrase) (id : NodeId) : Phrase → Prop where
  | plain {p : Phrase} (hnested : nestedFor? v.nested id = none) (h : PlainForms v below id p) :
    Forms v below id p
  | scalar {s : Nested Delayed} {body : List Token} (hnested : nestedFor? v.nested id = some s)
      (hkind : s.kind = .scalar) (hbody : v.bodyTokens? s = some body) :
    Forms v below id (.subquery body)
  | existence {s : Nested Delayed} {body : List Token} (hnested : nestedFor? v.nested id = some s)
      (hkind : s.kind = .exists) (hbody : v.bodyTokens? s = some body) :
    Forms v below id (.existence body)
  | memberOf {s : Nested Delayed} {body : List Token} {arg : NodeId} {options : RelSql.Options}
      {negated : Bool} {p : Phrase} (hnested : nestedFor? v.nested id = some s)
      (hkind : s.kind = .membership) (hbody : v.bodyTokens? s = some body)
      (hn : v.graph.node id = .contains arg options negated)
      (hp : below (v.graph.unaliased arg) = some p) :
    Forms v below id (.memberOf p negated body)

variable {v : View} {below : NodeId → Option Phrase} {id : NodeId} {p : Phrase}

theorem forms_of_plainPhrase (h : v.plainPhrase below id = some p) :
  PlainForms v below id p
  := by
  cases hn : v.graph.node id
  all_goals simp only [plainPhrase, hn] at h
  case literal value =>
      cases h
      exact .literal hn
  case column t name =>
      split at h
      case h_1 text htext =>
          cases h
          exact .column hn htext
      case h_2 => cases h
  case named arg name => exact .named hn h
  case unary op arg =>
      cases op
      all_goals
        obtain ⟨q, hq, h⟩ := Option.bind_eq_some_iff.mp h
        cases h
      case not => exact .not hn hq
      case negate => exact .negate hn hq
      case isNull => exact .null (show _ = Node.unary (if false then .notNull else .isNull) arg from hn) hq
      case notNull => exact .null (show _ = Node.unary (if true then .notNull else .isNull) arg from hn) hq
  case binary op l r =>
      split at h
      case h_1 unit count hr =>
          split at h
          case isTrue hop =>
              obtain ⟨q, hq, h⟩ := Option.bind_eq_some_iff.mp h
              cases h
              exact .shift hn hr hop hq
          case isFalse => cases h
      case h_2 hother =>
          by_cases hpow : op = .pow
          · subst hpow
            simp only [if_true] at h
            obtain ⟨q, hq, h⟩ := Option.bind_eq_some_iff.mp h
            obtain ⟨q', hq', h⟩ := Option.bind_eq_some_iff.mp h
            cases h
            exact .power hn hother hq hq'
          · simp only [if_neg hpow] at h
            obtain ⟨q, hq, h⟩ := Option.bind_eq_some_iff.mp h
            obtain ⟨q', hq', h⟩ := Option.bind_eq_some_iff.mp h
            cases h
            exact .operator hn hother hpow hq hq'
  case call f arguments =>
      obtain ⟨ps, hps, h⟩ := Option.bind_eq_some_iff.mp h
      cases h
      exact .call hn hps
  case cast arg target =>
      obtain ⟨q, hq, h⟩ := Option.bind_eq_some_iff.mp h
      cases h
      exact .cast hn hq
  case extract arg unit =>
      obtain ⟨q, hq, h⟩ := Option.bind_eq_some_iff.mp h
      cases h
      exact .extract hn hq
  case case base whens default =>
      obtain ⟨bases, hbases, h⟩ := Option.bind_eq_some_iff.mp h
      obtain ⟨branches, hbranches, h⟩ := Option.bind_eq_some_iff.mp h
      obtain ⟨defaults, hdefaults, h⟩ := Option.bind_eq_some_iff.mp h
      cases h
      exact .choice hn hbases hbranches hdefaults
  case between arg low high =>
      obtain ⟨q, hq, h⟩ := Option.bind_eq_some_iff.mp h
      obtain ⟨lower, hlower, h⟩ := Option.bind_eq_some_iff.mp h
      obtain ⟨upper, hupper, h⟩ := Option.bind_eq_some_iff.mp h
      cases h
      exact .between hn hq hlower hupper
  case contains arg options negated =>
      cases options with
      | list values =>
          obtain ⟨q, hq, h⟩ := Option.bind_eq_some_iff.mp h
          obtain ⟨ps, hps, h⟩ := Option.bind_eq_some_iff.mp h
          cases h
          exact .membership hn hq hps
      | column c => cases h
  case reduction a arg =>
      obtain ⟨q, hq, h⟩ := Option.bind_eq_some_iff.mp h
      cases h
      exact .aggregate hn hq
  case countStar t =>
      cases h
      exact .countStar hn
  all_goals cases h

theorem forms_of_phraseStep (h : v.phraseStep below id = some p) :
  Forms v below id p
  := by
  rw [phraseStep] at h
  cases hnested : nestedFor? v.nested id with
  | none =>
      simp only [hnested] at h
      exact .plain hnested (forms_of_plainPhrase h)
  | some s =>
      simp only [hnested] at h
      obtain ⟨body, hbody, h⟩ := Option.bind_eq_some_iff.mp h
      cases hkind : s.kind
      all_goals simp only [hkind] at h
      case table => cases h
      case scalar =>
          cases h
          exact .scalar hnested hkind hbody
      case «exists» =>
          cases h
          exact .existence hnested hkind hbody
      case membership =>
          split at h
          case h_1 arg options negated hn =>
              obtain ⟨q, hq, h⟩ := Option.bind_eq_some_iff.mp h
              cases h
              exact .memberOf hnested hkind hbody hn hq
          case h_2 => cases h

/-! ### Infix values -/

/-- What holds of all words, with a sign or without, holds of constants. -/
theorem of_literalPhrase {P : Phrase → Prop} (hatom : ∀ cs, P (.atom cs))
    (hnegative : ∀ cs, P (.negative cs)) (hspecial : ∀ name, P (.special name)) (value : Value) :
  P (literalPhrase value)
  := by
  cases value with
  | float x =>
      simp only [literalPhrase]
      split
      · exact hspecial _
      · split
        · exact hspecial _
        · exact Phrase.of_signed hatom hnegative _
  | _ =>
      simp only [literalPhrase]
      exact Phrase.of_signed hatom hnegative _

theorem isInfix_literalPhrase (value : Value) :
  (literalPhrase value).isInfix = false
  := of_literalPhrase (P := fun p => p.isInfix = false) (fun _ => rfl) (fun _ => rfl) (fun _ => rfl)
    value

/-- An infix value has an infix phrase, if no name and no subquery stands for it. -/
theorem isInfix_of_forms (h : Forms v below id p)
    (hnamed : ∀ arg name, v.graph.node id ≠ .named arg name) :
  p.isInfix = ((nestedFor? v.nested id).isNone && isInfix v.graph id)
  := by
  cases h with
  | scalar hnested _ _ | existence hnested _ _ | memberOf hnested _ _ _ _ =>
      rw [hnested]
      rfl
  | plain hnested h =>
      rw [hnested, Option.isNone_none, Bool.true_and]
      cases h
      case named hn _ => exact absurd hn (hnamed _ _)
      case literal value hn =>
          rw [isInfix, hn]
          exact isInfix_literalPhrase value
      case shift hn hr _ _ =>
          simp only [isInfix, hn, hr, Bool.and_false]
          rfl
      case operator op l r p q hn hr hop _ _ =>
          rw [isInfix, hn]
          dsimp only
          split
          case h_1 unit count hinterval => exact absurd hinterval (hr unit count)
          case h_2 =>
              rw [Bool.and_true]
              exact (decide_eq_true hop).symm
      case null negated hn _ =>
          cases negated
          all_goals
            rw [isInfix, hn]
            rfl
      case column hn _ | not hn _ | negate hn _ | call hn _ | cast hn _ | extract hn _
        | aggregate hn _ | power hn _ _ _ | choice hn _ _ _ | between hn _ _ _
        | membership hn _ _ | countStar hn =>
          rw [isInfix, hn]
          rfl

/-! ### Parts -/

/-- The text of a value holds that of another one. -/
inductive Holds (v : View) : NodeId → NodeId → Prop where
  | refl (id : NodeId) : Holds v id id
  | part {id p c : NodeId} (hp : p ∈ v.parts id) (h : Holds v p c) : Holds v id c

theorem mem_of_mapM {ids : List NodeId} :
    ∀ {ps : List Phrase}, ids.mapM below = some ps → ∀ q ∈ ps, ∃ c ∈ ids, below c = some q := by
  induction ids with
  | nil =>
      intro ps h
      cases h
      exact nofun
  | cons id ids ih =>
      intro ps h
      rw [List.mapM_cons] at h
      obtain ⟨p, hp, h⟩ := Option.bind_eq_some_iff.mp h
      obtain ⟨rest, hrest, h⟩ := Option.bind_eq_some_iff.mp h
      cases h
      refine List.forall_mem_cons.mpr ⟨⟨id, List.mem_cons_self, hp⟩, fun q hq => ?_⟩
      obtain ⟨c, hc, hbelow⟩ := ih hrest q hq
      exact ⟨c, List.mem_cons_of_mem id hc, hbelow⟩

theorem mem_of_branches {whens : List (NodeId × NodeId)} :
    ∀ {branches : List (Phrase × Phrase)},
      (whens.mapM fun w => do return (← below w.1, ← below w.2)) = some branches →
      ∀ b ∈ branches, ∃ w ∈ whens, below w.1 = some b.1 ∧ below w.2 = some b.2 := by
  induction whens with
  | nil =>
      intro branches h
      cases h
      exact nofun
  | cons w whens ih =>
      intro branches h
      rw [List.mapM_cons] at h
      obtain ⟨b, hb, h⟩ := Option.bind_eq_some_iff.mp h
      obtain ⟨rest, hrest, h⟩ := Option.bind_eq_some_iff.mp h
      cases h
      obtain ⟨condition, hcondition, hb⟩ := Option.bind_eq_some_iff.mp hb
      obtain ⟨result, hresult, hb⟩ := Option.bind_eq_some_iff.mp hb
      cases hb
      refine List.forall_mem_cons.mpr ⟨⟨w, List.mem_cons_self, hcondition, hresult⟩, fun b hb => ?_⟩
      obtain ⟨w', hw, hbelow⟩ := ih hrest b hb
      exact ⟨w', List.mem_cons_of_mem w hw, hbelow⟩

/-- What a phrase is made of: the phrase of a value that the text holds, or the count of an
interval. -/
def Given (below : NodeId → Option Phrase) (ids : List NodeId) (q : Phrase) : Prop :=
  (∃ c ∈ ids, below c = some q) ∨ ∃ count : Int, q = .signed (Value.integerText count).toList

theorem parts_literalPhrase (value : Value) :
  (literalPhrase value).parts = []
  := of_literalPhrase (P := fun p => p.parts = []) (fun _ => rfl) (fun _ => rfl) (fun _ => rfl) value

/-- The parts of the phrase of a value are those of the values whose texts its text holds. -/
theorem given_of_plainForms (h : PlainForms v below id p)
    (hnamed : ∀ arg name, v.graph.node id ≠ .named arg name) :
  ∀ q ∈ p.parts, Given below (v.plainParts id) q
  := by
  cases h
  case named hn _ => exact absurd hn (hnamed _ _)
  case literal hn =>
      rw [parts_literalPhrase]
      exact nofun
  case column | countStar => exact nofun
  case not hn hp | negate hn hp | null hn hp | cast hn hp | extract hn hp | aggregate hn hp =>
      simp only [plainParts, hn]
      exact List.forall_mem_singleton.mpr (.inl ⟨_, List.mem_singleton_self _, hp⟩)
  case shift count p hn hr hop hp =>
      simp only [plainParts, hn, hr, if_pos hop]
      exact List.forall_mem_cons.mpr ⟨.inl ⟨_, List.mem_singleton_self _, hp⟩,
        List.forall_mem_singleton.mpr (.inr ⟨count, rfl⟩)⟩
  case power l r p q hn hr hp hq =>
      have hparts : v.plainParts id = [l, r] := by
        rw [plainParts, hn]
        dsimp only
        generalize v.graph.node r = n at hr
        cases n with
        | interval unit count => exact absurd rfl (hr unit count)
        | _ => rfl
      rw [hparts]
      exact List.forall_mem_cons.mpr ⟨.inl ⟨_, List.mem_cons_self, hp⟩,
        List.forall_mem_singleton.mpr (.inl ⟨_, List.mem_cons_of_mem _ List.mem_cons_self, hq⟩)⟩
  case operator hn hr hop hp hq =>
      simp only [plainParts, hn, if_neg hop]
      exact List.forall_mem_cons.mpr ⟨.inl ⟨_, List.mem_cons_self, hp⟩,
        List.forall_mem_singleton.mpr (.inl ⟨_, List.mem_cons_of_mem _ List.mem_cons_self, hq⟩)⟩
  case call hn hps =>
      simp only [plainParts, hn]
      exact fun q hq => .inl (mem_of_mapM hps q hq)
  case between hn hp hlow hhigh =>
      simp only [plainParts, hn, Phrase.parts, List.forall_mem_cons, List.not_mem_nil,
        false_imp_iff, implies_true, and_true]
      exact ⟨.inl ⟨_, List.mem_cons_self, hp⟩,
        .inl ⟨_, List.mem_cons_of_mem _ List.mem_cons_self, hlow⟩,
        .inl ⟨_, List.mem_cons_of_mem _ (List.mem_cons_of_mem _ List.mem_cons_self), hhigh⟩⟩
  case membership hn hp hps =>
      simp only [plainParts, hn]
      refine List.forall_mem_cons.mpr ⟨.inl ⟨_, List.mem_cons_self, hp⟩, fun q hq => .inl ?_⟩
      obtain ⟨c, hc, hbelow⟩ := mem_of_mapM hps q hq
      exact ⟨c, List.mem_cons_of_mem _ hc, hbelow⟩
  case choice base default whens bases defaults branches hn hbases hbranches hdefaults =>
      simp only [plainParts, hn, Phrase.parts, List.map_append, List.map_map, List.map_flatMap]
      intro q hq
      left
      rcases List.mem_append.mp hq with hq | hq
      · rcases List.mem_append.mp hq with hq | hq
        · obtain ⟨q, hmem, rfl⟩ := List.mem_map.mp hq
          obtain ⟨c, hc, hbelow⟩ := mem_of_mapM hbases q hmem
          exact ⟨c, List.mem_append_left _ (List.mem_append_right _ hc), hbelow⟩
        · obtain ⟨b, hb, hq⟩ := List.mem_flatMap.mp hq
          obtain ⟨w, hw, hcondition, hresult⟩ := mem_of_branches hbranches b hb
          have hmem : ∀ c ∈ [w.1, w.2], c ∈ whens.flatMap (fun w => [w.1, w.2]) ++ base.toList
              ++ default.toList := fun c hc => List.mem_append_left _
            (List.mem_append_left _ (List.mem_flatMap.mpr ⟨w, hw, hc⟩))
          rcases List.mem_pair.mp hq with rfl | rfl
          · exact ⟨w.1, hmem _ List.mem_cons_self, hcondition⟩
          · exact ⟨w.2, hmem _ (List.mem_cons_of_mem _ List.mem_cons_self), hresult⟩
      · obtain ⟨q, hmem, rfl⟩ := List.mem_map.mp hq
        obtain ⟨c, hc, hbelow⟩ := mem_of_mapM hdefaults q hmem
        exact ⟨c, List.mem_append_right _ hc, hbelow⟩

theorem given_of_forms (h : Forms v below id p)
    (hnamed : nestedFor? v.nested id = none → ∀ arg name, v.graph.node id ≠ .named arg name) :
  ∀ q ∈ p.parts, Given below (v.parts id) q
  := by
  rw [parts]
  cases h with
  | plain hnested h =>
      simp only [hnested]
      exact given_of_plainForms h (hnamed hnested)
  | scalar _ _ _ | existence _ _ _ => exact List.forall_mem_nil _
  | memberOf hnested hkind _ hn hp =>
      simp only [hnested, hkind, hn]
      exact List.forall_mem_singleton.mpr (.inl ⟨_, List.mem_singleton_self _, hp⟩)

/-- What holds of the phrase of every value whose text a text holds, and of all counts, holds
throughout the phrase of the text. -/
theorem phrase_all {P : Phrase → Prop} (hcount : ∀ i : Int, P (.signed (Value.integerText i).toList))
    (hstep : ∀ below c p, v.Holds id c →
      (nestedFor? v.nested c = none → ∀ arg name, v.graph.node c ≠ .named arg name) →
      Forms v below c p → P p)
    (hp : v.phrase id = some p) :
  p.All P
  := by
  obtain ⟨i⟩ := id
  induction i using Nat.strongRecOn generalizing p with
  | ind i ih =>
      rw [phrase, NodeId.recurse_eq_below] at hp
      have hpart : ∀ c ∈ v.parts ⟨i⟩, ∀ q,
          (if c.index < i then v.phrase c else none) = some q → q.All P := by
        intro c hc q hq
        split at hq
        case isTrue hlt => exact ih c.index hlt (fun below d p hd => hstep below d p (.part hc hd)) hq
        case isFalse => cases hq
      by_cases hnamed : nestedFor? v.nested ⟨i⟩ = none ∧ ∃ arg name, v.graph.node ⟨i⟩ = .named arg name
      · obtain ⟨hnested, arg, name, hn⟩ := hnamed
        have hmem : arg ∈ v.parts ⟨i⟩ := by
          simp only [parts, hnested, plainParts, hn]
          exact List.mem_singleton_self arg
        simp only [phraseStep, hnested, plainPhrase, hn] at hp
        exact hpart arg hmem p hp
      · have hn : nestedFor? v.nested ⟨i⟩ = none → ∀ arg name, v.graph.node ⟨i⟩ ≠ .named arg name :=
          fun hnested arg name hnode => hnamed ⟨hnested, arg, name, hnode⟩
        rw [Phrase.All]
        have hforms := forms_of_phraseStep hp
        refine ⟨hstep _ _ p (.refl _) hn hforms, fun q hq => ?_⟩
        rcases given_of_forms hforms hn q hq with ⟨c, hc, hbelow⟩ | ⟨count, rfl⟩
        · exact hpart c hc q hbelow
        · rw [Phrase.All, Phrase.of_signed (P := fun p => p.parts = []) (fun _ => rfl) fun _ => rfl]
          exact ⟨hcount count, List.forall_mem_nil _⟩

end View

end Render

end RelSql
