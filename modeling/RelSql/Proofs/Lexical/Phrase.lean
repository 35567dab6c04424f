import RelSql.Proofs.Lexical.Indentation
import RelSql.Render.Query

/-!
# Phrases

A phrase is a value as it is written: the operators with their operands, down to words of
the text.  Its tokens are those of the text, an operand standing in parentheses when it is
infix.  Where a case has several branches, their lines are indented, so the words in them are
laid out anew when their quotes hold newlines.
-/

namespace RelSql.Sql

open Text Render

/-- What stands in front of a part of a case. -/
inductive Arm where
  | base
  | condition
  | result
  | default
  deriving DecidableEq, Repr

/-- The keyword in front of a part of a case. -/
def Arm.tokens : Arm → List Token
  | base => []
  | condition => [.keyword .WHEN]
  | result => [.keyword .THEN]
  | default => [.keyword .ELSE]

/-- What stands in front of the arguments of a call. -/
inductive Head where
  | function (f : Function)
  | power
  /-- The addition of an interval to a time, or its subtraction. -/
  | shift (unit : TimeUnit) (backward : Bool)
  deriving DecidableEq, Repr

/-- The name of a function. -/
def Head.name : Head → String
  | function f => f.sqlName
  | power => "pow"
  | shift unit backward => intervalFunction unit (if backward then .sub else .add)

/-- A value as it is written. -/
inductive Phrase where
  /-- A column, or a constant without a sign. -/
  | atom (chars : List Char)
  /-- A constant with a minus sign. -/
  | negative (chars : List Char)
  /-- A constant that is cast from its name. -/
  | special (name : List Char)
  | not (p : Phrase)
  | negate (p : Phrase)
  /-- The test of a value for being there. -/
  | null (p : Phrase) (negated : Bool)
  | binary (op : BinaryOp) (left right : Phrase)
  | call (head : Head) (arguments : List Phrase)
  | cast (p : Phrase) (target : DataType)
  | extract (p : Phrase) (unit : TimeUnit)
  | choice (arms : List (Arm × Phrase))
  | between (p low high : Phrase)
  | membership (p : Phrase) (negated : Bool) (values : List Phrase)
  | aggregate (a : Aggregate) (p : Phrase)
  | countStar
  | subquery (body : List Token)
  | existence (body : List Token)
  | memberOf (p : Phrase) (negated : Bool) (body : List Token)

/-- The phrase of a constant, given by its characters. -/
def Phrase.signed : List Char → Phrase
  | '-' :: cs => .negative cs
  | cs => .atom cs

/-- The token of an infix operator. -/
def operator (op : BinaryOp) : Token :=
  match op with
  | .sub => .minus
  | .and => .keyword .AND
  | .or => .keyword .OR
  | op => .word (symbol op).toList

/-- The tokens of a type. -/
def typeTokens : DataType → List Token
  | .decimal precision scale =>
    [.word "decimal".toList, .group [.ofWord (Number.digits precision.toNat), .comma,
      .ofWord (Number.digits scale.toNat)]]
  | t => [.ofWord t.sqlName.toList]

/-- The tokens of a test for being there. -/
def nullTokens (negated : Bool) : List Token :=
  if negated then [.keyword .IS, .keyword .NOT, .keyword .NULL] else [.keyword .IS, .keyword .NULL]

/-- The tokens of a test for membership. -/
def membershipTokens (negated : Bool) : List Token :=
  if negated then [.keyword .NOT, .keyword .IN] else [.keyword .IN]

/-- The tokens of an aggregate of a value. -/
def aggregateTokens (a : Aggregate) (ts : List Token) : List Token :=
  match a with
  | .sum => [.word "sum".toList, .group ts]
  | .mean => [.word "avg".toList, .group ts]
  | .min => [.word "min".toList, .group ts]
  | .max => [.word "max".toList, .group ts]
  | .count => [.word "count".toList, .group ts]
  | .countDistinct => [.word "COUNT".toList, .group (.word "DISTINCT".toList :: ts)]

namespace Phrase

/-- Whether a phrase stands in parentheses as an operand. -/
def isInfix : Phrase → Bool
  | .negate _ | .binary _ _ _ => true
  | _ => false

/-- The tokens of an operand, given those of its phrase. -/
def enclose (p : Phrase) (ts : List Token) : List Token :=
  if p.isInfix then [.group ts] else ts

/-- The phrases that a phrase is made of. -/
def parts : Phrase → List Phrase
  | .atom _ | .negative _ | .special _ | .countStar | .subquery _ | .existence _ => []
  | .not p | .negate p | .null p _ | .cast p _ | .extract p _ | .aggregate _ p
  | .memberOf p _ _ => [p]
  | .binary _ l r => [l, r]
  | .call _ arguments => arguments
  | .choice arms => arms.map Prod.snd
  | .between p low high => [p, low, high]
  | .membership p _ values => p :: values

theorem sizeOf_arm_lt {a : Arm × Phrase} {arms : List (Arm × Phrase)} (h : a ∈ arms) :
  sizeOf a.2 < sizeOf (choice arms)
  := by
  have hmem := List.sizeOf_lt_of_mem h
  obtain ⟨arm, p⟩ := a
  simp only [Prod.mk.sizeOf_spec, choice.sizeOf_spec] at hmem ⊢
  omega

/-- The tokens of a phrase. -/
def tokens : Phrase → List Token
  | .atom cs => [.ofWord cs]
  | .negative cs => [.minus, .ofWord cs]
  | .special name => [.keyword .CAST, .group [.word name, .keyword .AS, .word "double".toList]]
  | .not p => .keyword .NOT :: p.enclose p.tokens
  | .negate p => .minus :: p.enclose p.tokens
  | .null p negated => p.enclose p.tokens ++ nullTokens negated
  | .binary op l r => l.enclose l.tokens ++ [operator op] ++ r.enclose r.tokens
  | .call head arguments => [.word head.name.toList, .group (separated [.comma] (arguments.map tokens))]
  | .cast p target => [.keyword .CAST, .group (p.tokens ++ [.keyword .AS] ++ typeTokens target)]
  | .extract p unit =>
    [.word "extract".toList,
      .group (p.tokens ++ [.comma] ++ [.word (plainLiteral unit.name).toList])]
  | .choice arms =>
    [.keyword .CASE] ++ arms.flatMap (fun a => a.1.tokens ++ a.2.tokens) ++ [.keyword .END]
  | .between p low high =>
    p.enclose p.tokens ++ [.keyword .BETWEEN] ++ low.tokens ++ [.keyword .AND] ++ high.tokens
  | .membership p negated values =>
    p.enclose p.tokens ++ membershipTokens negated ++ [.group (separated [.comma] (values.map tokens))]
  | .aggregate a p => aggregateTokens a p.tokens
  | .countStar => [.word "count".toList, .group [.word ['*']]]
  | .subquery body => [.group body]
  | .existence body => [.keyword .EXISTS, .group body]
  | .memberOf p negated body =>
    p.enclose p.tokens ++ membershipTokens negated ++ [.group body]
decreasing_by
  all_goals first | decreasing_tactic | exact sizeOf_arm_lt ‹_›

/-- A phrase whose parts, and itself at last, are changed by a function. -/
def rebuild (f : Phrase → Phrase) : Phrase → Phrase
  | .not p => f (.not (p.rebuild f))
  | .negate p => f (.negate (p.rebuild f))
  | .null p negated => f (.null (p.rebuild f) negated)
  | .binary op l r => f (.binary op (l.rebuild f) (r.rebuild f))
  | .call head arguments => f (.call head (arguments.map (rebuild f)))
  | .cast p target => f (.cast (p.rebuild f) target)
  | .extract p unit => f (.extract (p.rebuild f) unit)
  | .choice arms => f (.choice (arms.map fun a => (a.1, a.2.rebuild f)))
  | .between p low high => f (.between (p.rebuild f) (low.rebuild f) (high.rebuild f))
  | .membership p negated values =>
    f (.membership (p.rebuild f) negated (values.map (rebuild f)))
  | .aggregate a p => f (.aggregate a (p.rebuild f))
  | .memberOf p negated body => f (.memberOf (p.rebuild f) negated body)
  | p => f p
decreasing_by
  all_goals first | decreasing_tactic | exact sizeOf_arm_lt ‹_›

theorem sizeOf_lt_of_mem_parts {p q : Phrase} (h : q ∈ p.parts) :
  sizeOf q < sizeOf p
  := by
  cases p with
  | choice arms =>
      obtain ⟨a, ha, rfl⟩ := List.mem_map.mp h
      exact sizeOf_arm_lt ha
  | call head arguments =>
      have hmem : q ∈ arguments := h
      have hlt := List.sizeOf_lt_of_mem hmem
      simp only [call.sizeOf_spec]
      omega
  | membership p negated values =>
      rcases List.mem_cons.mp h with rfl | hmem
      · simp only [membership.sizeOf_spec]
        omega
      · have hlt := List.sizeOf_lt_of_mem hmem
        simp only [membership.sizeOf_spec]
        omega
  | between p low high =>
      simp only [parts, List.mem_cons, List.not_mem_nil, or_false] at h
      rcases h with rfl | rfl | rfl <;> simp only [between.sizeOf_spec] <;> omega
  | binary op l r =>
      simp only [parts, List.mem_cons, List.not_mem_nil, or_false] at h
      rcases h with rfl | rfl <;> simp only [binary.sizeOf_spec] <;> omega
  | not p | negate p | null p _ | cast p _ | extract p _ | aggregate _ p | memberOf p _ _ =>
      rw [List.mem_singleton.mp h]
      simp only [not.sizeOf_spec, negate.sizeOf_spec, null.sizeOf_spec, cast.sizeOf_spec,
        extract.sizeOf_spec, aggregate.sizeOf_spec, memberOf.sizeOf_spec]
      omega
  | atom _ | negative _ | special _ | countStar | subquery _ | existence _ => cases h

/-- What holds of a phrase as soon as it holds of its parts holds of all phrases. -/
theorem induction {P : Phrase → Prop} (h : ∀ p : Phrase, (∀ q ∈ p.parts, P q) → P p) (p : Phrase) :
  P p
  := h p fun q _ => induction h q
termination_by p
decreasing_by
  exact sizeOf_lt_of_mem_parts ‹_›

/-- A property of a phrase and of all phrases in it. -/
def All (P : Phrase → Prop) (p : Phrase) : Prop :=
  P p ∧ ∀ q ∈ p.parts, q.All P
termination_by p
decreasing_by
  exact sizeOf_lt_of_mem_parts ‹_›

theorem All.here {P : Phrase → Prop} {p : Phrase} (h : p.All P) :
  P p
  := by
  rw [All] at h
  exact h.1

theorem All.part {P : Phrase → Prop} {p q : Phrase} (h : p.All P) (hq : q ∈ p.parts) :
  q.All P
  := by
  rw [All] at h
  exact h.2 q hq

theorem enclose_ne_nil {p : Phrase} {ts : List Token} (h : ts ≠ []) :
  p.enclose ts ≠ []
  := by
  rw [enclose]
  split
  · exact List.cons_ne_nil _ _
  · exact h

/-- No phrase is the empty text. -/
theorem tokens_ne_nil (p : Phrase) :
  p.tokens ≠ []
  := by
  induction p using induction with
  | h p ih =>
      cases p with
      | null q _ | membership q _ _ | memberOf q _ _ | binary _ q _ | between q _ _ =>
          have hq := enclose_ne_nil (p := q) (ih q List.mem_cons_self)
          simp only [tokens, ne_eq, List.append_eq_nil_iff, hq, false_and, not_false_eq_true]
      | aggregate a q => cases a <;> simp [tokens, aggregateTokens]
      | _ => simp [tokens]

/-! ### Layout -/

/-- A phrase without parts in a text whose lines are moved by `x`. -/
def padWord (x : List Char) : Phrase → Phrase
  | .atom cs => .atom (padBreaks x cs)
  | .negative cs => .negative (padBreaks x cs)
  | .special name => .special (padBreaks x name)
  | .subquery body => .subquery (padAll x body)
  | .existence body => .existence (padAll x body)
  | .memberOf p negated body => .memberOf p negated (padAll x body)
  | p => p

/-- A phrase in a text whose lines are moved by `x`. -/
def pad (x : List Char) : Phrase → Phrase :=
  rebuild (padWord x)

/-- The indentation of the branches of a case. -/
def branchPad : List Char := [' ', ' ']

/-- The parts of a case as they stand in its text.  Several branches stand on lines of their
own, which are indented. -/
def layArms (arms : List (Arm × Phrase)) : List (Arm × Phrase) :=
  if arms.countP (fun a => a.1 = .condition) > 1 then
    arms.map fun a => if a.1 = .base then a else (a.1, a.2.pad branchPad)
  else arms

/-- A case whose parts are laid out. -/
def layChoice : Phrase → Phrase
  | .choice arms => .choice (layArms arms)
  | p => p

/-- A phrase with the words of its text. -/
def laidOut : Phrase → Phrase :=
  rebuild layChoice

@[simp]
theorem isInfix_pad (x : List Char) (p : Phrase) :
  (p.pad x).isInfix = p.isInfix
  := by
  cases p <;> simp only [pad, rebuild, padWord] <;> rfl

@[simp]
theorem isInfix_laidOut (p : Phrase) :
  p.laidOut.isInfix = p.isInfix
  := by
  cases p <;> simp only [laidOut, rebuild, layChoice] <;> rfl

theorem padAll_separated (x : List Char) (ks : List Token) (parts : List (List Token)) :
  padAll x (separated ks parts) = separated (padAll x ks) (parts.map (padAll x))
  := by
  fun_induction separated ks parts with
  | case1 => rfl
  | case2 ts => rfl
  | case3 ts rest hrest ih =>
      obtain ⟨us, rest, rfl⟩ := List.exists_cons_of_ne_nil hrest
      rw [padAll_append, padAll_append, ih]
      rfl

theorem pad_operator (x : List Char) (op : BinaryOp) :
  (operator op).pad x = operator op
  := by
  cases op <;> rfl

theorem newline_not_mem_name (head : Head) :
  '\n' ∉ head.name.toList
  := by
  cases head with
  | function f => cases f <;> decide
  | power => decide
  | shift unit backward => cases unit <;> cases backward <;> decide

theorem newline_not_mem_digits (n : Nat) :
  '\n' ∉ Number.digits n
  := by
  intro h
  exact absurd (Nat.isDigit_of_mem_toDigits (by decide) (by decide) h) (by decide)

theorem padAll_typeTokens (x : List Char) (t : DataType) :
  padAll x (typeTokens t) = typeTokens t
  := by
  cases t with
  | decimal precision scale =>
      simp only [typeTokens, padAll, Token.pad, ← Token.ofWord_pad,
        padBreaks_of_not_mem (newline_not_mem_digits _)]
      rfl
  | _ => rfl

theorem padAll_nullTokens (x : List Char) (negated : Bool) :
  padAll x (nullTokens negated) = nullTokens negated
  := by
  cases negated <;> rfl

theorem padAll_membershipTokens (x : List Char) (negated : Bool) :
  padAll x (membershipTokens negated) = membershipTokens negated
  := by
  cases negated <;> rfl

theorem padAll_aggregateTokens (x : List Char) (a : Aggregate) (ts : List Token) :
  padAll x (aggregateTokens a ts) = aggregateTokens a (padAll x ts)
  := by
  cases a <;> rfl

theorem padAll_armTokens (x : List Char) (arm : Arm) :
  padAll x arm.tokens = arm.tokens
  := by
  cases arm <;> rfl

theorem padAll_flatMap {α : Type} (x : List Char) (f : α → List Token) (l : List α) :
  padAll x (l.flatMap f) = l.flatMap fun a => padAll x (f a)
  := by
  induction l with
  | nil => rfl
  | cons a l ih => rw [List.flatMap_cons, padAll_append, ih, List.flatMap_cons]

/-- A phrase whose lines are moved has the tokens of the moved text. -/
theorem tokens_pad (x : List Char) (p : Phrase) :
  (p.pad x).tokens = padAll x p.tokens
  := by
  -- the operand of an operator keeps its parentheses
  have henclose : ∀ q : Phrase, (q.pad x).tokens = padAll x q.tokens →
      (q.pad x).enclose (q.pad x).tokens = padAll x (q.enclose q.tokens) := by
    intro q hq
    rw [enclose, enclose, isInfix_pad, hq]
    split <;> rfl
  induction p using induction with
  | h p ih =>
      simp only [pad] at henclose ih ⊢
      cases p with
      | atom cs | negative cs =>
          simp only [rebuild, padWord, tokens, padAll, Token.pad, Token.ofWord_pad]
      | special name =>
          simp only [rebuild, padWord, tokens, padAll, Token.pad]
          rfl
      | countStar =>
          simp only [rebuild, padWord, tokens]
          rfl
      | subquery body | existence body => simp only [rebuild, padWord, tokens, padAll, Token.pad]
      | not q | negate q =>
          have hq := henclose q (ih q List.mem_cons_self)
          simp only [rebuild, padWord, tokens, hq, padAll, Token.pad]
      | null q negated =>
          have hq := henclose q (ih q List.mem_cons_self)
          simp only [rebuild, padWord, tokens, hq, padAll_append, padAll_nullTokens]
      | binary op l r =>
          have hl := henclose l (ih l List.mem_cons_self)
          have hr := henclose r (ih r (List.mem_cons_of_mem _ List.mem_cons_self))
          simp only [rebuild, padWord, tokens, hl, hr, padAll_append, padAll, pad_operator]
      | call head arguments =>
          have harguments : (arguments.map (rebuild (padWord x))).map tokens
              = (arguments.map tokens).map (padAll x) := by
            simp only [List.map_map]
            exact List.map_congr_left ih
          simp only [rebuild, padWord, tokens, harguments, padAll, Token.pad, padAll_separated,
            padBreaks_of_not_mem (newline_not_mem_name head)]
      | cast q target =>
          have hq := ih q List.mem_cons_self
          simp only [rebuild, padWord, tokens, hq, padAll, Token.pad, padAll_append,
            padAll_typeTokens]
      | extract q unit =>
          have hq := ih q List.mem_cons_self
          have hunit : '\n' ∉ (plainLiteral unit.name).toList := by
            cases unit <;> decide
          simp only [rebuild, padWord, tokens, hq, padAll, Token.pad, padAll_append,
            padBreaks_of_not_mem hunit]
          rfl
      | choice arms =>
          have harms : ∀ a ∈ arms, (a.2.rebuild (padWord x)).tokens = padAll x a.2.tokens :=
            fun a ha => ih a.2 (List.mem_map_of_mem ha)
          simp only [rebuild, padWord, tokens, padAll_append, padAll, Token.pad, padAll_flatMap,
            List.flatMap_map, padAll_armTokens]
          congr 2
          rw [List.flatMap_def, List.flatMap_def]
          exact congrArg List.flatten (List.map_congr_left fun a ha => by rw [harms a ha])
      | between q low high =>
          have hq := henclose q (ih q List.mem_cons_self)
          have hlow := ih low (List.mem_cons_of_mem _ List.mem_cons_self)
          have hhigh := ih high (List.mem_cons_of_mem _ (List.mem_cons_of_mem _ List.mem_cons_self))
          simp only [rebuild, padWord, tokens, hq, hlow, hhigh, padAll_append, padAll, Token.pad]
      | membership q negated values =>
          have hq := henclose q (ih q List.mem_cons_self)
          have hvalues : (values.map (rebuild (padWord x))).map tokens
              = (values.map tokens).map (padAll x) := by
            simp only [List.map_map]
            exact List.map_congr_left fun v hv => ih v (List.mem_cons_of_mem q hv)
          simp only [rebuild, padWord, tokens, hq, hvalues, padAll, Token.pad, padAll_append,
            padAll_separated, padAll_membershipTokens]
      | aggregate a q =>
          have hq := ih q List.mem_cons_self
          simp only [rebuild, padWord, tokens, hq, padAll_aggregateTokens]
      | memberOf q negated body =>
          have hq := henclose q (ih q List.mem_cons_self)
          simp only [rebuild, padWord, tokens, hq, padAll_append, padAll, Token.pad,
            padAll_membershipTokens]

/-- The branches of a case are moved where there are several of them; its base is not. -/
theorem flatMap_layArms (bases : List Phrase) {rest : List (Arm × Phrase)}
    (hrest : ∀ a ∈ rest, a.1 ≠ .base) :
  (layArms (bases.map (Prod.mk .base) ++ rest)).flatMap (fun a => a.1.tokens ++ a.2.tokens)
    = bases.flatMap tokens
      ++ if rest.countP (fun a => a.1 = .condition) > 1 then
          padAll branchPad (rest.flatMap fun a => a.1.tokens ++ a.2.tokens)
        else rest.flatMap fun a => a.1.tokens ++ a.2.tokens
  := by
  have hcount : (bases.map (Prod.mk Arm.base)).countP (fun a => a.1 = .condition) = 0 := by
    rw [List.countP_map]
    exact List.countP_eq_zero.mpr fun p _ => by simp
  have hbase : (bases.map (Prod.mk Arm.base)).flatMap (fun a => a.1.tokens ++ a.2.tokens)
      = bases.flatMap tokens := by
    rw [List.flatMap_map]
    rfl
  rw [layArms, List.countP_append, hcount, Nat.zero_add]
  split
  · have hkept : (bases.map (Prod.mk Arm.base)).map
        (fun a => if a.1 = .base then a else (a.1, a.2.pad branchPad))
        = bases.map (Prod.mk Arm.base) := by
      rw [List.map_map]
      rfl
    have hmoved : (rest.map fun a => if a.1 = .base then a else (a.1, a.2.pad branchPad))
        = rest.map fun a => (a.1, a.2.pad branchPad) :=
      List.map_congr_left fun a ha => if_neg (hrest a ha)
    rw [List.map_append, hkept, hmoved, List.flatMap_append, hbase, List.flatMap_map, padAll_flatMap]
    congr 2
    funext a
    rw [padAll_append, padAll_armTokens, tokens_pad]
  · rw [List.flatMap_append, hbase]

/-- The tokens of a case, by its base, its branches and its default. -/
theorem tokens_laidOut_choice (bases : List Phrase) (branches : List (Phrase × Phrase))
    (defaults : List Phrase) :
  (choice (bases.map (Prod.mk .base)
      ++ (branches.flatMap fun b => [(.condition, b.1), (.result, b.2)])
      ++ defaults.map (Prod.mk .default))).laidOut.tokens
    = let lines := (branches.map fun b => Arm.condition.tokens ++ b.1.laidOut.tokens
        ++ (Arm.result.tokens ++ b.2.laidOut.tokens)).flatten
        ++ (defaults.map fun p => p.laidOut.tokens).flatMap (.keyword .ELSE :: ·)
      [.keyword .CASE] ++ ((bases.map fun p => p.laidOut.tokens).flatten
        ++ if branches.length > 1 then padAll branchPad lines else lines) ++ [.keyword .END]
  := by
  let rest := (branches.flatMap fun b => [(Arm.condition, b.1.laidOut), (Arm.result, b.2.laidOut)])
    ++ (defaults.map laidOut).map (Prod.mk Arm.default)
  have harms : (bases.map (Prod.mk Arm.base)
      ++ (branches.flatMap fun b => [(Arm.condition, b.1), (Arm.result, b.2)])
      ++ defaults.map (Prod.mk Arm.default)).map (fun a => (a.1, a.2.laidOut))
      = (bases.map laidOut).map (Prod.mk .base) ++ rest := by
    simp only [rest, List.map_append, List.map_map, List.map_flatMap, List.append_assoc]
    rfl
  have hrest : ∀ a ∈ rest, a.1 ≠ .base := by
    intro a ha
    rcases List.mem_append.mp ha with ha | ha
    · obtain ⟨b, _, ha⟩ := List.mem_flatMap.mp ha
      rcases List.mem_pair.mp ha with rfl | rfl <;> exact nofun
    · obtain ⟨q, _, rfl⟩ := List.mem_map.mp ha
      exact nofun
  have hcount : rest.countP (fun a => a.1 = .condition) = branches.length := by
    have hdefaults : ((defaults.map laidOut).map (Prod.mk Arm.default)).countP
        (fun a => a.1 = .condition) = 0 := by
      rw [List.countP_map]
      exact List.countP_eq_zero.mpr fun p _ => by simp
    simp only [rest, List.countP_append, hdefaults, List.countP_flatMap]
    simp [Function.comp_def]
  have hlines : rest.flatMap (fun a => a.1.tokens ++ a.2.tokens)
      = (branches.map fun b => Arm.condition.tokens ++ b.1.laidOut.tokens
        ++ (Arm.result.tokens ++ b.2.laidOut.tokens)).flatten
        ++ (defaults.map fun p => p.laidOut.tokens).flatMap (.keyword .ELSE :: ·) := by
    simp only [rest, List.flatMap_append, List.flatMap_assoc, List.flatMap_map, ← List.flatMap_def]
    simp [Arm.tokens]
  have hlaid : (choice (bases.map (Prod.mk .base)
      ++ (branches.flatMap fun b => [(.condition, b.1), (.result, b.2)])
      ++ defaults.map (Prod.mk .default))).laidOut
      = choice (layArms ((bases.map laidOut).map (Prod.mk .base) ++ rest)) := by
    rw [← harms]
    simp only [laidOut, rebuild, layChoice]
  rw [hlaid, tokens, flatMap_layArms _ hrest, hcount, hlines, List.flatMap_map, List.flatMap_def]

theorem leads_append {ts : List Token} (h : ts ≠ []) (us : List Token) :
  leads (ts ++ us) = leads ts
  := by
  obtain ⟨t, ts, rfl⟩ := List.exists_cons_of_ne_nil h
  cases t <;> rfl

/-- The layout does not change what a phrase starts with. -/
theorem leads_laidOut (p : Phrase) :
  leads p.laidOut.tokens = leads p.tokens
  := by
  have henclose : ∀ q : Phrase, leads q.laidOut.tokens = leads q.tokens →
      leads (q.laidOut.enclose q.laidOut.tokens) = leads (q.enclose q.tokens) := by
    intro q hq
    rw [enclose, enclose, isInfix_laidOut]
    split
    · rfl
    · exact hq
  induction p using induction with
  | h p ih =>
      simp only [laidOut] at henclose ih ⊢
      cases p with
      | null q _ | membership q _ _ | memberOf q _ _ | binary _ q _ | between q _ _ =>
          simp only [rebuild, layChoice, tokens, List.append_assoc,
            leads_append (enclose_ne_nil (tokens_ne_nil _))]
          exact henclose q (ih q List.mem_cons_self)
      | aggregate a q => cases a <;> simp only [rebuild, layChoice, tokens] <;> rfl
      | _ => simp only [rebuild, layChoice, tokens] <;> rfl

theorem leads_enclose_laidOut (p : Phrase) :
  leads (p.laidOut.enclose p.laidOut.tokens) = leads (p.enclose p.tokens)
  := by
  rw [enclose, enclose, isInfix_laidOut]
  split
  · rfl
  · exact leads_laidOut p

end Phrase

end RelSql.Sql
