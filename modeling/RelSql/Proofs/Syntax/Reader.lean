import RelSql.Proofs.Syntax.Operands

/-!
# Reading phrases

The tokens of a phrase are read back from left to right: an operand with the tests behind it, and an
operator with a second operand if one follows.  What stands in parentheses, between the keywords of
a case and in the bounds of a test is read by a reader for phrases that are nested less deeply.
`Phrase.read_tokens` says that a firm phrase is read back as its tree.
-/

namespace RelSql.Sql

open Text Number

/-! ### Words -/

/-- The heads of calls. -/
def Head.all : List Head :=
  [Function.ln, .log10, .exp, .sqrt, .abs, .ceil, .floor, .lower, .upper, .length, .coalesce,
      .now].map .function
    ++ .power :: TimeUnit.all.flatMap fun unit => [.shift unit false, .shift unit true]

/-- The head of a call that a word is. -/
def head? (cs : List Char) : Option Head :=
  Head.all.find? fun head => head.name.toList = cs

theorem head?_name (head : Head) :
  head? head.name.toList = some head
  := by
  cases head with
  | function f => cases f <;> decide
  | power => decide
  | shift unit backward => cases unit <;> cases backward <;> decide

theorem name_ne_extract (head : Head) :
  head.name.toList ≠ "extract".toList
  := by
  cases head with
  | function f => cases f <;> decide
  | power => decide
  | shift unit backward => cases unit <;> cases backward <;> decide

theorem isNumeric_name (head : Head) :
  isNumeric head.name.toList = false
  := by
  cases head with
  | function f => cases f <;> decide
  | power => decide
  | shift unit backward => cases unit <;> cases backward <;> decide

/-- The unit of time that a literal names. -/
def unit? (cs : List Char) : Option TimeUnit :=
  TimeUnit.all.find? fun unit => (Render.plainLiteral unit.name).toList = cs

theorem unit?_name (unit : TimeUnit) :
  unit? (Render.plainLiteral unit.name).toList = some unit
  := by
  cases unit <;> decide

/-- The type that tokens name. -/
def type? : List Token → Option DataType
  | [.keyword .NULL] => some .null
  | [.word cs] => (DataType.spellings.map Prod.snd).find? fun t => t.sqlName.toList = cs
  | [.word _, .group [.word ds, .comma, .word es]] =>
    some (.decimal (UInt8.ofNat (ofDigits ds)) (UInt8.ofNat (ofDigits es)))
  | _ => none

theorem ofDigits_digits (n : UInt8) :
  UInt8.ofNat (ofDigits (digits n.toNat)) = n
  := by
  rw [Number.ofDigits_digits, UInt8.ofNat_toNat]

theorem type?_typeTokens (t : DataType) :
  type? (typeTokens t) = some t
  := by
  cases t with
  | decimal precision scale =>
      have hword : ∀ n, Token.ofWord (digits n) = .word (digits n) := by
        intro n
        rw [Token.ofWord, (isNumeral_digits n).read?_eq_none]
      simp only [typeTokens, hword, type?, ofDigits_digits]
  | _ => decide

/-- The operator that a token is. -/
def operator? : Token → Option BinaryOp
  | .minus => some .sub
  | .keyword .AND => some .and
  | .keyword .OR => some .or
  | .word cs => BinaryOp.all.find? fun op => op ≠ .pow ∧ (Render.symbol op).toList = cs
  | _ => none

theorem operator?_operator {op : BinaryOp} (h : op ≠ .pow) :
  operator? (operator op) = some op
  := by
  cases op
  case pow => exact absurd rfl h
  all_goals decide

/-! ### Readers -/

/-- What phrases are read by: in a place, a phrase and the tokens behind it. -/
abbrev Reader := Place → List Token → Option (Phrase × List Token)

/-- Whether tokens start with a number without a sign. -/
def startsWithNumber : List Token → Bool
  | .word cs :: _ => isNumeric cs
  | _ => false

/-- The tokens behind a minus sign that is an operator, and not the sign of a number. -/
def behindSign : List Token → Option (List Token)
  | .minus :: ts => if startsWithNumber ts then none else some ts
  | _ => none

/-- Whether a token is a comma. -/
def Token.isComma : Token → Bool
  | .comma => true
  | _ => false

/-- Whether a part of a case starts with a token, or the case ends with it. -/
def Token.startsArm : Token → Bool
  | .keyword k => [Keyword.WHEN, .THEN, .ELSE, .END].contains k
  | _ => false

/-- What the next part of a case is, and its tokens. -/
def nextArm : List Token → Arm × List Token
  | .keyword .WHEN :: ts => (.condition, ts)
  | .keyword .THEN :: ts => (.result, ts)
  | .keyword .ELSE :: ts => (.default, ts)
  | ts => (.base, ts)

namespace Reader

variable (R : Reader)

/-- The phrase that tokens are read as up to their end. -/
def whole? (ts : List Token) : Option Phrase :=
  match R .whole ts with
  | some (p, []) => some p
  | _ => none

/-- The phrases between commas. -/
def list? (ts : List Token) : Option (List Phrase) :=
  if ts.isEmpty then some [] else (ts.splitOnP Token.isComma).mapM R.whole?

/-- The cast in the parentheses behind `CAST`. -/
def cast? (ts : List Token) : Option Phrase :=
  match R .whole ts with
  | some (p, .keyword .AS :: us) => (type? us).map (.cast p)
  | _ => none

/-- The call of a name with what stands in the parentheses behind it. -/
def call? (name : List Char) (ts : List Token) : Option Phrase :=
  if name = "extract".toList then
    match R .whole ts with
    | some (p, [.comma, .word cs]) => (unit? cs).map (.extract p)
    | _ => none
  else do return .call (← head? name) (← R.list? ts)

/-- The parts of a case up to its end, at most `n` of them. -/
def arms? : Nat → List Token → Option (List (Arm × Phrase) × List Token)
  | 0, _ => none
  | _ + 1, .keyword .END :: ts => some ([], ts)
  | n + 1, ts => do
    let (p, us) ← R .whole (nextArm ts).2
    let (arms, rest) ← arms? n us
    return (((nextArm ts).1, p) :: arms, rest)

/-- The operand without tests that tokens start with. -/
def unit? (n : Nat) : List Token → Option (Phrase × List Token)
  | .group ts :: rest => do return (← R.whole? ts, rest)
  | .minus :: .word cs :: rest => some (.negate (.atom cs), rest)
  | .keyword .NULL :: rest => some (.atom "NULL".toList, rest)
  | .keyword .CAST :: .group ts :: rest => do return (← R.cast? ts, rest)
  | .keyword .CASE :: ts => do
    let (arms, rest) ← R.arms? n ts
    return (.choice arms, rest)
  | .word cs :: .group ts :: rest => do return (← R.call? cs ts, rest)
  | .word cs :: rest => some (.atom cs, rest)
  | _ => none

/-- The tests of an operand. -/
def tests? (p : Phrase) : List Token → Option (Phrase × List Token)
  | .keyword .IS :: .keyword .NULL :: ts => tests? (.null p false) ts
  | .keyword .IS :: .keyword .NOT :: .keyword .NULL :: ts => tests? (.null p true) ts
  | .keyword .IN :: .group us :: ts => do tests? (.membership p false (← R.list? us)) ts
  | .keyword .NOT :: .keyword .IN :: .group us :: ts => do
    tests? (.membership p true (← R.list? us)) ts
  | .keyword .BETWEEN :: ts =>
    match R .low ts with
    | some (low, .keyword .AND :: us) => do
      let (high, rest) ← R .high us
      return (.between p low high, rest)
    | _ => none
  | ts => some (p, ts)

/-- The operand that tokens start with. -/
def operand? (n : Nat) : List Token → Option (Phrase × List Token)
  | .keyword .NOT :: ts => do
    let (p, rest) ← operand? n ts
    return (.not p, rest)
  | ts => do
    let (p, rest) ← R.unit? n ts
    R.tests? p rest

/-- What an operand is with the operator behind it, if there is one that is read in this place. -/
def chain? (n : Nat) (place : Place) (p : Phrase) : List Token → Option (Phrase × List Token)
  | [] => some (p, [])
  | t :: ts =>
    match operator? t with
    | none => some (p, t :: ts)
    | some op =>
      if place.takes op then do
        let (q, rest) ← R.operand? n ts
        return (.binary op p q, rest)
      else some (p, t :: ts)

/-- Reads phrases, by a reader for those that are nested in them. -/
def step (n : Nat) : Reader := fun place ts =>
  match behindSign ts with
  | some us => do
    let (p, rest) ← R.operand? n us
    return (.negate p, rest)
  | none => do
    let (p, rest) ← R.operand? n ts
    R.chain? n place p rest

end Reader

/-- Reads phrases that are nested less than `n` levels deep. -/
def read : Nat → Reader
  | 0 => fun _ _ => none
  | n + 1 => (read n).step n

/-! ### Ends -/

/-- Whether a token goes on with the operand in front of it. -/
def Token.goesOn : Token → Bool
  | .group _ => true
  | .keyword k => [Keyword.IS, .IN, .NOT, .BETWEEN].contains k
  | _ => false

/-- Whether an operand ends in front of tokens. -/
def stops (ts : List Token) : Bool :=
  !ts.head?.any Token.goesOn

/-- Whether a phrase in this place ends in front of tokens. -/
def Place.ends (place : Place) (ts : List Token) : Bool :=
  stops ts && (ts.head?.bind operator?).all fun op => !place.takes op

theorem Place.ends_high {place : Place} {ts : List Token} (h : place.ends ts) :
  Place.high.ends ts
  := by
  rw [ends, Bool.and_eq_true] at h ⊢
  refine ⟨h.1, ?_⟩
  cases hop : ts.head?.bind operator? with
  | none => rfl
  | some op =>
      have htakes := h.2
      rw [hop] at htakes
      revert htakes
      cases place <;> cases op <;> decide

namespace Phrase

/-- A reader reads a phrase back as its tree, wherever it stands. -/
def ReadBy (R : Reader) (p : Phrase) : Prop :=
  ∀ place rest, p.fits place → place.ends rest → R place (p.tokens ++ rest) = some (p.tree, rest)

theorem fits_whole (p : Phrase) :
  p.fits .whole
  := by
  cases p <;> rfl

/-- No comma stands between the tokens of a phrase. -/
theorem not_isComma_tokens {p : Phrase} (h : p.Elementary) :
  ∀ t ∈ p.tokens, t.isComma = false
  := forall_mem_tokens ⟨fun _ => rfl, fun _ => rfl, rfl, fun _ _ => rfl⟩ h

variable {R : Reader} {p : Phrase}

theorem ReadBy.whole? (h : p.ReadBy R) :
  R.whole? p.tokens = some p.tree
  := by
  have hread := h .whole [] p.fits_whole rfl
  rw [List.append_nil] at hread
  rw [Reader.whole?, hread]

theorem list?_separated {ps : List Phrase} (helementary : ∀ p ∈ ps, p.Elementary)
    (h : ∀ p ∈ ps, p.ReadBy R) :
  R.list? (separated [.comma] (ps.map tokens)) = some (ps.map tree)
  := by
  have hmap : ∀ {ps : List Phrase}, (∀ p ∈ ps, p.ReadBy R) →
      (ps.map tokens).mapM R.whole? = some (ps.map tree) := by
    intro ps h
    induction ps with
    | nil => rfl
    | cons p ps ih =>
        rw [List.forall_mem_cons] at h
        rw [List.map_cons, List.mapM_cons, h.1.whole?, ih h.2]
        rfl
  have hsplit : ∀ {ps : List Phrase}, (∀ p ∈ ps, p.Elementary) → ps ≠ [] →
      (separated [.comma] (ps.map tokens)).splitOnP Token.isComma = ps.map tokens := by
    intro ps h hne
    induction ps with
    | nil => exact absurd rfl hne
    | cons p ps ih =>
        rw [List.forall_mem_cons] at h
        have hcomma := not_isComma_tokens h.1
        cases ps with
        | nil => exact List.splitOnP_eq_singleton hcomma
        | cons q ps =>
            rw [List.map_cons, List.map_cons, separated, List.append_assoc, List.singleton_append,
              List.splitOnP_append_cons_of_forall_mem hcomma _ rfl]
            · exact congrArg _ (ih h.2 (List.cons_ne_nil _ _))
            · exact nofun
  cases ps with
  | nil => rfl
  | cons p ps =>
      have hempty : (separated [.comma] ((p :: ps).map tokens)).isEmpty = false := by
        rw [List.isEmpty_eq_false_iff]
        intro hnil
        have hnone := hsplit helementary (List.cons_ne_nil p ps)
        rw [hnil] at hnone
        exact tokens_ne_nil p (List.cons.inj hnone).1.symm
      rw [Reader.list?, hempty, if_neg Bool.false_ne_true, hsplit helementary (List.cons_ne_nil p ps), hmap h]

/-! ### First tokens -/

/-- A phrase whose operands are read as such. -/
def Sound : Phrase → Prop :=
  All fun p => p.FirmAt ∧ p.FormedAt

theorem Sound.elementary (h : p.Sound) :
  p.Elementary
  := h.imp fun p hp => by
    have hformed := hp.2
    cases p <;> first | rfl | exact hformed

/-- The operands of a phrase are still read as such when it is laid out. -/
theorem Sound.laidOut (h : p.Sound) :
  p.laidOut.Sound
  := all_laidOut
    (fun _ hp => ⟨firmAt_rebuild (.pad branchPad) hp.1, formedAt_rebuild (.pad branchPad) hp.2⟩)
    (fun _ hp => ⟨firmAt_rebuild .choice hp.1, formedAt_rebuild .choice hp.2⟩) h

theorem ofWord_of_formedAt {cs : List Char} (h : (atom cs).FormedAt) :
  Token.ofWord cs = .word cs ∨ (cs = "NULL".toList ∧ Token.ofWord cs = .keyword .NULL)
  := by
  rcases h with h | rfl
  · exact .inl h
  · exact .inr ⟨rfl, rfl⟩

/-- No phrase starts like a part of a case. -/
theorem tokens_cons (h : p.Sound) :
  ∃ t ts, p.tokens = t :: ts ∧ t.startsArm = false
  := by
  induction p using induction with
  | h p ih =>
      have henclose : ∀ q ∈ p.parts, ∀ us, ∃ t ts, q.enclose q.tokens ++ us = t :: ts ∧ t.startsArm = false := by
        intro q hq us
        obtain ⟨t, ts, htokens, ht⟩ := ih q hq (h.part hq)
        rw [enclose]
        split
        · exact ⟨_, _, rfl, rfl⟩
        · exact ⟨t, ts ++ us, by rw [htokens, List.cons_append], ht⟩
      cases p with
      | atom cs =>
          simp only [tokens]
          rcases ofWord_of_formedAt h.here.2 with hword | ⟨_, hword⟩
          · exact ⟨_, _, rfl, by rw [hword]; rfl⟩
          · exact ⟨_, _, rfl, by rw [hword]; rfl⟩
      | null q _ | membership q _ _ | memberOf q _ _ | binary _ q _ | between q _ _ =>
          simp only [tokens, List.append_assoc]
          exact henclose q List.mem_cons_self _
      | aggregate a q =>
          simp only [tokens]
          cases a <;> exact ⟨_, _, rfl, rfl⟩
      | _ =>
          simp only [tokens]
          exact ⟨_, _, rfl, rfl⟩

/-- No operand starts with a sign that is an operator, and it starts with a number just when its
first value is one. -/
theorem operand_starts (h : p.Sound) (rest : List Token) :
  behindSign (p.enclose p.tokens ++ rest) = none
    ∧ Sql.startsWithNumber (p.enclose p.tokens ++ rest) = p.startsWithNumber
  := by
  induction p using induction generalizing rest with
  | h p ih =>
      simp only [enclose]
      cases p with
      | atom cs =>
          simp only [isInfix, tokens, Bool.false_eq_true, if_false]
          rcases ofWord_of_formedAt h.here.2 with hword | ⟨rfl, hword⟩
          · rw [hword]
            exact ⟨rfl, rfl⟩
          · exact ⟨rfl, rfl⟩
      | negative cs =>
          simp only [isInfix, tokens, Bool.false_eq_true, if_false]
          obtain ⟨hword, hnumeric⟩ := h.here.2
          rw [hword]
          exact ⟨if_pos hnumeric, rfl⟩
      | null q _ | membership q _ _ | between q _ _ =>
          simp only [isInfix, tokens, Bool.false_eq_true, if_false, List.append_assoc]
          exact ih q List.mem_cons_self (h.part List.mem_cons_self) _
      | aggregate _ _ | countStar | subquery _ | existence _ | memberOf _ _ _ => cases h.here.2
      | negate q | binary op l r =>
          simp only [isInfix, if_true]
          exact ⟨rfl, rfl⟩
      | call head arguments =>
          simp only [isInfix, tokens, Bool.false_eq_true, if_false]
          exact ⟨rfl, isNumeric_name head⟩
      | _ =>
          simp only [isInfix, tokens, Bool.false_eq_true, if_false]
          exact ⟨rfl, rfl⟩

/-! ### Parts -/

/-- The words of a part of a case, behind the keyword in front of it. -/
theorem nextArm_tokens (a : Arm × Phrase) (hsound : a.2.Sound) (rest : List Token) :
  nextArm (a.1.tokens ++ a.2.tokens ++ rest) = (a.1, a.2.tokens ++ rest)
  := by
  obtain ⟨arm, p⟩ := a
  cases arm with
  | base =>
      obtain ⟨t, ts, htokens, ht⟩ := tokens_cons hsound
      dsimp only at htokens ⊢
      rw [htokens, Arm.tokens, List.nil_append, List.cons_append]
      cases t with
      | keyword k => cases k <;> first | rfl | cases ht
      | _ => rfl
  | condition | result | default => rfl

/-- A part of a case is read with the keyword in front of it. -/
theorem arms?_cons (a : Arm × Phrase) (hsound : a.2.Sound) (h : a.2.ReadBy R) (n : Nat)
    {rest : List Token} (hrest : Place.whole.ends rest) :
  R.arms? (n + 1) (a.1.tokens ++ a.2.tokens ++ rest)
    = (R.arms? n rest).map fun r => ((a.1, a.2.tree) :: r.1, r.2)
  := by
  have hend : ∀ us, a.1.tokens ++ a.2.tokens ++ rest ≠ .keyword .END :: us := by
    intro us heq
    have hnext := nextArm_tokens a hsound rest
    obtain ⟨t, ts, htokens, ht⟩ := tokens_cons hsound
    rw [heq, htokens] at hnext
    cases (Prod.mk.inj hnext).2
    cases ht
  rw [Reader.arms?, nextArm_tokens a hsound, h .whole rest a.2.fits_whole hrest]
  · simp only [Option.bind_eq_bind, Option.bind_some]
    cases R.arms? n rest <;> rfl
  · exact hend

theorem ends_arms {arms : List (Arm × Phrase)} (h : ∀ a ∈ arms.head?, a.1 ≠ .base) (rest : List Token) :
  Place.whole.ends (arms.flatMap (fun a => a.1.tokens ++ a.2.tokens) ++ .keyword .END :: rest)
  := by
  cases arms with
  | nil => rfl
  | cons a arms =>
      obtain ⟨arm, p⟩ := a
      cases arm with
      | base => exact absurd rfl (h _ rfl)
      | condition | result | default => rfl

theorem arms?_flatMap {arms : List (Arm × Phrase)} (hsound : ∀ a ∈ arms, a.2.Sound)
    (h : ∀ a ∈ arms, a.2.ReadBy R) (hbase : ∀ a ∈ arms.tail, a.1 ≠ .base) {n : Nat}
    (hn : arms.length < n) (rest : List Token) :
  R.arms? n (arms.flatMap (fun a => a.1.tokens ++ a.2.tokens) ++ .keyword .END :: rest)
    = some (arms.map fun a => (a.1, a.2.tree), rest)
  := by
  induction arms generalizing n with
  | nil =>
      obtain ⟨n, rfl⟩ := Nat.exists_eq_add_of_lt hn
      rfl
  | cons a arms ih =>
      rw [List.length_cons] at hn
      obtain ⟨n, rfl⟩ : ∃ m, n = m + 1 := ⟨n - 1, by omega⟩
      rw [List.forall_mem_cons] at hsound h
      rw [List.tail_cons] at hbase
      rw [List.flatMap_cons, List.append_assoc,
        arms?_cons a hsound.1 h.1 n (ends_arms (fun b hb => hbase b (List.mem_of_mem_head? hb)) rest),
        ih hsound.2 h.2 (fun b hb => hbase b (List.mem_of_mem_tail hb)) (by omega)]
      rfl

/-! ### Operands -/

/-- Whether an operand is neither a negation nor a test. -/
def isPrimary : Phrase → Bool
  | .not _ | .null _ _ | .membership _ _ _ | .between _ _ _ => false
  | _ => true

/-- A measure of phrases: those that a phrase is read by are smaller. -/
noncomputable def weight : Phrase → Nat
  | .special name => 2 * sizeOf (special name) + 1
  | p => 2 * sizeOf p

theorem two_mul_sizeOf_le_weight (p : Phrase) :
  2 * sizeOf p ≤ p.weight
  := by
  cases p <;> simp only [weight, Nat.le_refl, Nat.le_succ]

theorem weight_lt_of_mem_parts {q : Phrase} (h : q ∈ p.parts) :
  q.weight < p.weight
  := by
  have hlt := sizeOf_lt_of_mem_parts h
  have hle := two_mul_sizeOf_le_weight p
  have hq : q.weight ≤ 2 * sizeOf q + 1 := by
    cases q <;> simp only [weight, Nat.le_refl, Nat.le_succ]
  omega

theorem length_le_sizeOf (arms : List (Arm × Phrase)) :
  arms.length ≤ sizeOf arms
  := by
  induction arms with
  | nil => exact Nat.zero_le _
  | cons a arms ih =>
      simp only [List.length_cons, List.cons.sizeOf_spec]
      omega

variable {n : Nat}

theorem operand?_of_unit? {ts rest : List Token} (h : R.unit? n ts = some (p, rest)) :
  R.operand? n ts = R.tests? p rest
  := by
  unfold Reader.operand?
  split
  case h_1 => cases h
  case h_2 => rw [h, Option.bind_eq_bind, Option.bind_some]

theorem unit?_word {cs : List Char} {rest : List Token} (hrest : ∀ ts us, rest ≠ .group ts :: us) :
  R.unit? n (.word cs :: rest) = some (.atom cs, rest)
  := by
  cases rest with
  | nil => rfl
  | cons t rest =>
      cases t with
      | group ts => exact absurd rfl (hrest ts rest)
      | _ => rfl

/-- Nothing that goes on with an operand is read behind its end. -/
theorem tests?_of_stops {rest : List Token} (h : stops rest) (p : Phrase) :
  R.tests? p rest = some (p, rest)
  := by
  unfold Reader.tests?
  split
  case h_6 => rfl
  all_goals cases h

variable (hR : ∀ q : Phrase, q.weight < n → q.Sound → q.ReadBy R)

include hR

/-- An operand that is neither a negation nor a test is read up to its end. -/
theorem unit?_enclose (hp : p.weight ≤ n) (hgrouped : p.isInfix → p.weight < n) (h : p.Sound)
    (hprimary : p.isPrimary) {rest : List Token} (hrest : ∀ ts us, rest ≠ .group ts :: us) :
  R.unit? n (p.enclose p.tokens ++ rest) = some (p.tree, rest)
  := by
  have hread : ∀ q ∈ p.parts, q.ReadBy R := fun q hq =>
    hR q (Nat.lt_of_lt_of_le (weight_lt_of_mem_parts hq) hp) (h.part hq)
  rw [enclose]
  split
  case isTrue hoperator =>
      have hwhole := (hR p (hgrouped hoperator) h).whole?
      rw [List.singleton_append, Reader.unit?, hwhole]
      rfl
  case isFalse hoperator =>
      cases p with
      | atom cs =>
          simp only [tokens, tree, rebuild, spellOut]
          rcases ofWord_of_formedAt h.here.2 with hword | ⟨rfl, _⟩
          · rw [hword]
            exact unit?_word hrest
          · rfl
      | negative cs =>
          simp only [tokens, tree, rebuild, spellOut]
          rw [h.here.2.1]
          rfl
      | special name =>
          have hname : (atom name).Sound := by
            rw [Sound, All]
            exact ⟨⟨trivial, .inl h.here.2⟩, List.forall_mem_nil _⟩
          have hlt : (atom name).weight < n := by
            refine Nat.lt_of_lt_of_le ?_ hp
            simp only [weight, atom.sizeOf_spec, special.sizeOf_spec, Nat.lt_succ_self]
          have hq := hR _ hlt hname .whole [.keyword .AS, .word "double".toList] rfl rfl
          simp only [tokens, tree, rebuild, spellOut, show Token.ofWord name = _ from h.here.2] at hq ⊢
          simp only [List.cons_append, List.nil_append, Reader.unit?, Reader.cast?] at hq ⊢
          rw [hq]
          rfl
      | call head arguments =>
          have hlist := list?_separated (fun q hq => Sound.elementary (h.part hq)) hread
          simp only [parts] at hlist
          simp only [tokens, tree, rebuild, spellOut, List.cons_append, List.nil_append, Reader.unit?,
            Reader.call?, if_neg (name_ne_extract head), head?_name, hlist]
          rfl
      | cast q target =>
          have hq := hread q List.mem_cons_self .whole (.keyword .AS :: typeTokens target) q.fits_whole rfl
          simp only [tokens, tree, rebuild, spellOut, List.cons_append, List.nil_append,
            List.append_assoc, Reader.unit?, Reader.cast?, hq, type?_typeTokens]
          rfl
      | extract q unit =>
          have hq := hread q List.mem_cons_self .whole
            [.comma, .word (Render.plainLiteral unit.name).toList] q.fits_whole rfl
          simp only [tokens, tree, rebuild, spellOut, List.cons_append, List.nil_append,
            List.append_assoc, Reader.unit?, Reader.call?, if_true, hq, unit?_name]
          rfl
      | choice arms =>
          have hcount : arms.length < n := by
            have hlength := length_le_sizeOf arms
            simp only [weight, choice.sizeOf_spec] at hp
            omega
          have hbase : ∀ a ∈ arms.tail, a.1 ≠ .base := by
            intro a ha hbase
            refine h.here.2 ?_
            rw [← List.map_tail, ← hbase]
            exact List.mem_map_of_mem ha
          have harms := arms?_flatMap (fun a ha => h.part (List.mem_map_of_mem ha))
            (fun a ha => hread a.2 (List.mem_map_of_mem ha)) hbase hcount rest
          simp only [tokens, tree, rebuild, spellOut, List.cons_append, List.nil_append,
            List.append_assoc, Reader.unit?, harms]
          rfl
      | negate _ | binary _ _ _ => exact absurd rfl hoperator
      | not _ | null _ _ | membership _ _ _ | between _ _ _ => cases hprimary
      | aggregate _ _ | countStar | subquery _ | existence _ | memberOf _ _ _ => cases h.here.2

/-- An operand that is no negation and has no bounds is read with the tests behind it as theirs. -/
theorem operand?_tests (hp : p.weight ≤ n) (hgrouped : p.isInfix → p.weight < n) (h : p.Sound)
    (hloose : p.isLoose = false) {rest : List Token} (hrest : ∀ ts us, rest ≠ .group ts :: us) :
  R.operand? n (p.enclose p.tokens ++ rest) = R.tests? p.tree rest
  := by
  induction p using induction generalizing rest with
  | h p ih =>
      by_cases hprimary : p.isPrimary
      · exact operand?_of_unit? (unit?_enclose hR hp hgrouped h hprimary hrest)
      · have hpart : ∀ q ∈ p.parts, q.weight < n := fun q hq =>
          Nat.lt_of_lt_of_le (weight_lt_of_mem_parts hq) hp
        cases p with
        | null q negated =>
            have hq := hpart q List.mem_cons_self
            have hstart : ∀ ts us, nullTokens negated ++ rest ≠ .group ts :: us := by
              cases negated <;> rintro _ _ ⟨⟩
            have hoperand := ih q List.mem_cons_self (Nat.le_of_lt hq) (fun _ => hq)
              (h.part List.mem_cons_self) h.here.1 hstart
            simp only [enclose, isInfix, Bool.false_eq_true, if_false, tokens, List.append_assoc] at hoperand ⊢
            rw [hoperand]
            cases negated <;> simp only [tree, rebuild, spellOut] <;> rfl
        | membership q negated values =>
            have hq := hpart q List.mem_cons_self
            have hsound : ∀ v ∈ values, v.Sound := fun v hv => h.part (List.mem_cons_of_mem q hv)
            have hlist := list?_separated (fun v hv => (hsound v hv).elementary) fun v hv =>
              hR v (hpart v (List.mem_cons_of_mem q hv)) (hsound v hv)
            have hstart : ∀ ts us, membershipTokens negated ++ ([.group (separated [.comma] (values.map tokens))]
                ++ rest) ≠ .group ts :: us := by
              cases negated <;> rintro _ _ ⟨⟩
            have hoperand := ih q List.mem_cons_self (Nat.le_of_lt hq) (fun _ => hq)
              (h.part List.mem_cons_self) h.here.1 hstart
            simp only [enclose, isInfix, Bool.false_eq_true, if_false, tokens, List.append_assoc] at hoperand ⊢
            rw [hoperand]
            cases negated
            all_goals
              simp only [membershipTokens, Bool.false_eq_true, if_false, if_true, List.cons_append,
                List.nil_append, Reader.tests?, hlist, tree, rebuild, spellOut]
              rfl
        | not _ | between _ _ _ => cases hloose
        | _ => exact absurd rfl hprimary

/-- An operand is read up to its end, and so is the upper bound at its end. -/
theorem operand?_enclose (hp : p.weight ≤ n) (hgrouped : p.isInfix → p.weight < n) (h : p.Sound)
    {rest : List Token} (hrest : stops rest) (hopen : p.isOpen → Place.high.ends rest) :
  R.operand? n (p.enclose p.tokens ++ rest) = some (p.tree, rest)
  := by
  induction p using induction with
  | h p ih =>
      have hpart : ∀ q ∈ p.parts, q.weight < n := fun q hq =>
        Nat.lt_of_lt_of_le (weight_lt_of_mem_parts hq) hp
      cases hloose : p.isLoose with
      | false =>
          have hgroup : ∀ ts us, rest ≠ .group ts :: us := by
            rintro ts us rfl
            cases hrest
          rw [operand?_tests hR hp hgrouped h hloose hgroup, tests?_of_stops hrest]
      | true =>
          cases p with
          | not q =>
              have hq := hpart q List.mem_cons_self
              have hoperand := ih q List.mem_cons_self (Nat.le_of_lt hq) (fun _ => hq)
                (h.part List.mem_cons_self) hopen
              simp only [enclose, isInfix, Bool.false_eq_true, if_false, tokens, List.cons_append,
                Reader.operand?] at hoperand ⊢
              rw [hoperand]
              simp only [tree, rebuild, spellOut]
              rfl
          | between q low high =>
              obtain ⟨hq, hlow, hhigh⟩ : q.weight < n ∧ low.weight < n ∧ high.weight < n := by
                simpa only [parts, List.forall_mem_cons, List.not_mem_nil, false_imp_iff,
                  implies_true, and_true] using hpart
              obtain ⟨hfirm, hfitslow, hfitshigh⟩ := h.here.1
              have hlower := hR low hlow (h.part (List.mem_cons_of_mem _ List.mem_cons_self)) .low
                (.keyword .AND :: high.tokens ++ rest) hfitslow rfl
              have hupper := hR high hhigh
                (h.part (List.mem_cons_of_mem _ (List.mem_cons_of_mem _ List.mem_cons_self))) .high
                rest hfitshigh (hopen rfl)
              have hoperand := operand?_tests hR (Nat.le_of_lt hq) (fun _ => hq)
                (h.part List.mem_cons_self) hfirm
                (show ∀ ts us, .keyword .BETWEEN :: (low.tokens ++ .keyword .AND :: high.tokens ++ rest)
                  ≠ .group ts :: us by rintro _ _ ⟨⟩)
              simp only [enclose, isInfix, Bool.false_eq_true, if_false, tokens, List.append_assoc,
                List.cons_append, List.nil_append] at hoperand hlower ⊢
              rw [hoperand, Reader.tests?, hlower]
              simp only [hupper, tree, rebuild, spellOut]
              rfl
          | _ => cases hloose

/-! ### Phrases -/

omit hR in
/-- No operator that is read in a place stands behind the phrase there. -/
theorem chain?_of_ends {place : Place} {rest : List Token} (h : place.ends rest) (p : Phrase) :
  R.chain? n place p rest = some (p, rest)
  := by
  cases rest with
  | nil => rfl
  | cons t rest =>
      rw [Place.ends, Bool.and_eq_true] at h
      have htakes := h.2
      rw [List.head?_cons, Option.bind_some] at htakes
      rw [Reader.chain?]
      cases hop : operator? t with
      | none => rfl
      | some op =>
          rw [hop, Option.all_some, Bool.not_eq_true'] at htakes
          simp only [htakes, Bool.false_eq_true, if_false]

/-- A phrase is read up to its end, if those that are nested in it are. -/
theorem readBy_step (hp : p.weight ≤ n) (h : p.Sound) :
  p.ReadBy (R.step n)
  := by
  intro place rest hfits hends
  have hstops : stops rest := by
    rw [Place.ends, Bool.and_eq_true] at hends
    exact hends.1
  have hpart : ∀ q ∈ p.parts, q.weight < n := fun q hq =>
    Nat.lt_of_lt_of_le (weight_lt_of_mem_parts hq) hp
  by_cases hgrouped : p.isInfix
  · cases p with
    | negate q =>
        have hq := hpart q List.mem_cons_self
        have hsound := h.part List.mem_cons_self
        have hstart := (operand_starts hsound rest).2
        simp only [tokens, tree, rebuild, spellOut, List.cons_append]
        cases hnumber : q.startsWithNumber with
        | false =>
            rw [hnumber] at hstart
            have hoperand := operand?_enclose hR (Nat.le_of_lt hq) (fun _ => hq) hsound hstops
              fun _ => Place.ends_high hends
            simp only [Reader.step, behindSign, hstart, Bool.false_eq_true, if_false, hoperand]
            rfl
        | true =>
            -- the sign is read as that of a number
            have hnumeric := h.here.1 hnumber
            cases q with
            | atom cs =>
                rcases ofWord_of_formedAt hsound.here.2 with hword | ⟨rfl, _⟩
                · have hunit : R.unit? n (.minus :: .word cs :: rest) = some (.negate (.atom cs), rest) := rfl
                  simp only [enclose, isInfix, tokens, hword, Bool.false_eq_true, if_false,
                    List.cons_append, List.nil_append, rebuild, spellOut, Reader.step, behindSign,
                    Sql.startsWithNumber, show isNumeric cs = true from hnumeric, if_true,
                    operand?_of_unit? hunit, tests?_of_stops hstops]
                  exact chain?_of_ends hends _
                · cases hnumber
            | _ => cases hnumeric
    | binary op l r =>
        have hl := hpart l List.mem_cons_self
        have hr := hpart r (List.mem_cons_of_mem _ List.mem_cons_self)
        have hsound := h.part List.mem_cons_self
        have hstops' : ∀ ts, stops (operator op :: ts) := fun ts => by cases op <;> rfl
        have hopen : l.isOpen → Place.high.ends (operator op :: (r.enclose r.tokens ++ rest)) := by
          intro hopen
          rcases h.here.1 hopen with rfl | rfl <;> rfl
        have hleft := operand?_enclose hR (Nat.le_of_lt hl) (fun _ => hl) hsound (hstops' _) hopen
        have hright := operand?_enclose hR (Nat.le_of_lt hr) (fun _ => hr)
          (h.part (List.mem_cons_of_mem _ List.mem_cons_self)) hstops fun _ => Place.ends_high hends
        have hstart := (operand_starts hsound (operator op :: (r.enclose r.tokens ++ rest))).1
        simp only [tokens, tree, rebuild, spellOut, List.append_assoc, List.cons_append,
          List.nil_append]
        rw [Reader.step, hstart]
        simp only [hleft]
        simp only [Reader.chain?, operator?_operator h.here.2, show place.takes op = true from hfits,
          Option.bind_eq_bind, Option.bind_some, if_true, hright]
        rfl
    | _ => cases hgrouped
  · -- a phrase that is not infix is an operand
    have hstart := (operand_starts h rest).1
    have hoperand := operand?_enclose hR hp (fun hgrouped' => absurd hgrouped' hgrouped) h hstops
      fun _ => Place.ends_high hends
    rw [enclose, if_neg hgrouped] at hstart hoperand
    rw [Reader.step, hstart]
    simp only [hoperand]
    exact chain?_of_ends hends p.tree

omit hR in
/-- A firm phrase is read up to its end by a reader that reads deeply enough. -/
theorem readBy_read (hp : p.weight < n) (h : p.Sound) :
  p.ReadBy (read n)
  := by
  induction n generalizing p with
  | zero => exact absurd hp (Nat.not_lt_zero _)
  | succ n ih => exact readBy_step (fun q hq hsound => ih hq hsound) (Nat.le_of_lt_succ hp) h

omit hR in
/-- The tokens of a firm phrase are read back as its tree. -/
theorem read_tokens (hp : p.weight < n) (h : p.Sound) :
  read n .whole p.tokens = some (p.tree, [])
  := by
  have hread := readBy_read hp h .whole [] p.fits_whole rfl
  rwa [List.append_nil] at hread

omit hR in
/-- Firm phrases with the same tokens have the same tree. -/
theorem tree_eq_of_tokens {q : Phrase} (hp : p.Sound) (hq : q.Sound) (h : p.tokens = q.tokens) :
  p.tree = q.tree
  := by
  have hreadp := read_tokens (Nat.lt_succ_of_le (Nat.le_max_left p.weight q.weight)) hp
  have hreadq := read_tokens (Nat.lt_succ_of_le (Nat.le_max_right p.weight q.weight)) hq
  rw [h, hreadq] at hreadp
  exact (Prod.mk.inj (Option.some.inj hreadp)).1.symm

end Phrase

end RelSql.Sql
