import Mathlib.Data.List.Forall2
import RelSql.Text.Character
import RelSql.Text.Layout

/-!
# Tokens

SQL is read from left to right, one character after the other.  Words end at blanks,
commas and parentheses; what stands between quotes belongs to a word as it is, a backslash
taking the next character with it.  Two minus signs outside of quotes start a comment that
ends with its line, and what stands between two parentheses is read as one token.

A text spells the tokens that it is read as; it is read as the same tokens wherever it stands
between others, as `Scan.run_nestedIn` shows.
-/

namespace RelSql.Sql

open Text

/-- The keywords that values and set operations are read by. -/
inductive Keyword where
  | SELECT | UNION | ALL | ORDER | BY | LIMIT | OFFSET
  | AND | OR | NOT | IS | NULL | IN | BETWEEN | EXISTS
  | CASE | WHEN | THEN | ELSE | END | CAST | AS
  deriving DecidableEq, Repr

namespace Keyword

/-- The characters of a keyword. -/
def chars : Keyword → List Char
  | SELECT => "select".toList
  | UNION => "union".toList
  | ALL => "all".toList
  | ORDER => "order".toList
  | BY => "by".toList
  | LIMIT => "limit".toList
  | OFFSET => "offset".toList
  | AND => "and".toList
  | OR => "or".toList
  | NOT => "not".toList
  | IS => "is".toList
  | NULL => "null".toList
  | IN => "in".toList
  | BETWEEN => "between".toList
  | EXISTS => "exists".toList
  | CASE => "case".toList
  | WHEN => "when".toList
  | THEN => "then".toList
  | ELSE => "else".toList
  | END => "end".toList
  | CAST => "cast".toList
  | AS => "as".toList

/-- All keywords. -/
def all : List Keyword :=
  [SELECT, UNION, ALL, ORDER, BY, LIMIT, OFFSET, AND, OR, NOT, IS, NULL, IN, BETWEEN, EXISTS,
    CASE, WHEN, THEN, ELSE, END, CAST, AS]

/-- The keyword that a word is, in any case. -/
def read? (word : List Char) : Option Keyword :=
  all.find? fun k => k.chars = lower word

/-- A word that holds a character other than a letter is no keyword. -/
theorem read?_eq_none {cs : List Char} {c : Char} (hc : c ∈ cs) (h : (lowerChar c).isLower = false) :
  read? cs = none
  := by
  rw [read?, List.find?_eq_none]
  intro k _ hk
  have hmem : lowerChar c ∈ k.chars := by
    rw [of_decide_eq_true hk]
    exact List.mem_map_of_mem hc
  have hletters : ∀ d ∈ k.chars, d.isLower :=
    List.all_eq_true.mp (by cases k <;> decide)
  rw [hletters _ hmem] at h
  cases h

end Keyword

/-- What SQL is read as. -/
inductive Token where
  | keyword (k : Keyword)
  | word (chars : List Char)
  | comma
  | minus
  /-- The rest of a line that starts with two minus signs. -/
  | comment
  /-- What stands between two parentheses. -/
  | group (tokens : List Token)

/-- The token of the characters of a word. -/
def Token.ofWord (cs : List Char) : Token :=
  match Keyword.read? cs with
  | some k => .keyword k
  | none => .word cs

/-- Lists of tokens with `ks` between any two of them. -/
def separated (ks : List Token) : List (List Token) → List Token
  | [] => []
  | [ts] => ts
  | ts :: rest => ts ++ ks ++ separated ks rest

/-- The marks that texts are quoted by. -/
inductive Quote where
  | single
  | double
  | back
  deriving DecidableEq, Repr

namespace Quote

/-- The character of a mark. -/
def char : Quote → Char
  | single => '\''
  | double => '"'
  | back => '\x60'

/-- The mark that a character is. -/
def read? (c : Char) : Option Quote :=
  [single, double, back].find? fun q => q.char = c

end Quote

/-- What a character does to the word before it. -/
inductive Role where
  | blank
  | opening
  | closing
  | comma
  | minus
  | mark (q : Quote)
  | other
  deriving DecidableEq, Repr

/-- The role of a character outside of quotes. -/
def Role.of (c : Char) : Role :=
  if isBlank c then .blank
  else if c = '(' then .opening
  else if c = ')' then .closing
  else if c = ',' then .comma
  else if c = '-' then .minus
  else
    match Quote.read? c with
    | some q => .mark q
    | none => .other

/-- Whether words end at a character of this role. -/
def Role.isBoundary : Role → Bool
  | blank | opening | closing | comma => true
  | _ => false

/-- Whether words end at a character. -/
def isBoundary (c : Char) : Bool :=
  (Role.of c).isBoundary

/-- What a word is up to a character of it: in a number, a sign may follow the mark of the
exponent. -/
inductive Shape where
  | plain
  | number
  | exponent
  deriving DecidableEq, Repr

/-- The shape of a word that starts with a character. -/
def Shape.first (c : Char) : Shape :=
  if c.isDigit then .number else .plain

/-- The shape of a word that goes on with a character. -/
def Shape.next (c : Char) : Shape → Shape
  | .plain => .plain
  | .number => if c = 'e' ∨ c = 'E' then .exponent else .number
  | .exponent => .number

/-- Where a character stands. -/
inductive Mode where
  | between
  | minus
  | word (shape : Shape) (chars : List Char)
  | quoted (q : Quote) (chars : List Char)
  | escaped (q : Quote) (chars : List Char)
  | comment
  /-- After a parenthesis that closes nothing. -/
  | stray
  deriving DecidableEq, Repr

/-- The state of reading: the tokens of the innermost group that is open, and those of the
groups around it. -/
structure Scan where
  mode : Mode
  tokens : List Token
  outer : List (List Token)

namespace Scan

/-- The state before the first character. -/
def initial : Scan := ⟨.between, [], []⟩

/-- The state after the word or the minus sign that is being read. -/
def settled (s : Scan) : Scan :=
  match s.mode with
  | .word _ cs => ⟨.between, s.tokens ++ [.ofWord cs], s.outer⟩
  | .minus => ⟨.between, s.tokens ++ [.minus], s.outer⟩
  | _ => s

/-- Closes the innermost group. -/
def close (s : Scan) : Scan :=
  match s.outer with
  | [] => { s with mode := .stray }
  | around :: outer => ⟨.between, around ++ [.group s.tokens], outer⟩

/-- Reads a character of this role that no token goes on with. -/
def startAs (s : Scan) (c : Char) : Role → Scan
  | .blank => s
  | .opening => ⟨.between, [], s.tokens :: s.outer⟩
  | .closing => s.close
  | .comma => ⟨.between, s.tokens ++ [.comma], s.outer⟩
  | .minus => { s with mode := .minus }
  | .mark q => { s with mode := .quoted q [c] }
  | .other => { s with mode := .word (.first c) [c] }

/-- Reads a character that no token goes on with. -/
def start (s : Scan) (c : Char) : Scan :=
  s.startAs c (Role.of c)

/-- Reads a character of this role after those of a word. -/
def goOnAs (s : Scan) (shape : Shape) (cs : List Char) (c : Char) : Role → Scan
  | .minus =>
    if shape = .exponent then { s with mode := .word .number (cs ++ [c]) }
    else s.settled.startAs c .minus
  | .mark q => { s with mode := .quoted q (cs ++ [c]) }
  | .other => { s with mode := .word (shape.next c) (cs ++ [c]) }
  | role => s.settled.startAs c role

/-- Reads a character after those of a word. -/
def goOn (s : Scan) (shape : Shape) (cs : List Char) (c : Char) : Scan :=
  s.goOnAs shape cs c (Role.of c)

/-- Reads a character. -/
def step (s : Scan) (c : Char) : Scan :=
  match s.mode with
  | .between => s.start c
  | .minus =>
    if c = '-' then ⟨.comment, s.tokens ++ [.comment], s.outer⟩ else s.settled.start c
  | .word shape cs => s.goOn shape cs c
  | .quoted q cs =>
    if c = q.char then { s with mode := .word .plain (cs ++ [c]) }
    else if c = '\\' then { s with mode := .escaped q (cs ++ [c]) }
    else { s with mode := .quoted q (cs ++ [c]) }
  | .escaped q cs => { s with mode := .quoted q (cs ++ [c]) }
  | .comment => if c = '\n' then { s with mode := .between } else s
  | .stray => s

theorem step_between (tokens : List Token) (outer : List (List Token)) (c : Char) :
  step ⟨.between, tokens, outer⟩ c = startAs ⟨.between, tokens, outer⟩ c (Role.of c)
  := rfl

theorem step_word (shape : Shape) (cs : List Char) (tokens : List Token)
    (outer : List (List Token)) (c : Char) :
  step ⟨.word shape cs, tokens, outer⟩ c
    = goOnAs ⟨.word shape cs, tokens, outer⟩ shape cs c (Role.of c)
  := rfl

theorem step_quoted (q : Quote) (cs : List Char) (tokens : List Token)
    (outer : List (List Token)) (c : Char) :
  step ⟨.quoted q cs, tokens, outer⟩ c
    = if c = q.char then ⟨.word .plain (cs ++ [c]), tokens, outer⟩
      else if c = '\\' then ⟨.escaped q (cs ++ [c]), tokens, outer⟩
      else ⟨.quoted q (cs ++ [c]), tokens, outer⟩
  := rfl

theorem step_escaped (q : Quote) (cs : List Char) (tokens : List Token)
    (outer : List (List Token)) (c : Char) :
  step ⟨.escaped q cs, tokens, outer⟩ c = ⟨.quoted q (cs ++ [c]), tokens, outer⟩
  := rfl

/-- Reads characters. -/
def run (s : Scan) (cs : List Char) : Scan :=
  cs.foldl step s

@[simp]
theorem run_nil (s : Scan) :
  s.run [] = s
  := rfl

@[simp]
theorem run_cons (s : Scan) (c : Char) (cs : List Char) :
  s.run (c :: cs) = (s.step c).run cs
  := rfl

theorem run_append (s : Scan) (cs ds : List Char) :
  s.run (cs ++ ds) = (s.run cs).run ds
  := List.foldl_append

end Scan

/-- The tokens of a text, if all quotes and parentheses are closed and it ends outside of
comments. -/
def tokens? (text : String) : Option (List Token) :=
  let s := (Scan.initial.run text.toList).settled
  match s.mode, s.outer with
  | .between, [] => some s.tokens
  | _, _ => none

/-- A text that is read as these tokens and ends outside of comments. -/
def Spells (text : String) (ts : List Token) : Prop :=
  (Scan.initial.run text.toList).settled = ⟨.between, ts, []⟩

/-- Whether a text starts with a character at which words end. -/
def starts (text : String) : Bool :=
  text.toList.head?.any isBoundary

/-- Whether a text ends with a character at which words end. -/
def ends (text : String) : Bool :=
  text.toList.getLast?.any isBoundary

theorem not_minus_of_boundary {c : Char} (hc : isBoundary c) :
  c ≠ '-'
  := by
  rintro rfl
  exact absurd hc (by decide)

theorem not_quote_of_boundary {c : Char} (hc : isBoundary c) (q : Quote) :
  c ≠ q.char
  := by
  rintro rfl
  revert hc
  cases q <;> decide

namespace Scan

/-! ### Ends of words -/

theorem settled_settled (s : Scan) :
  s.settled.settled = s.settled
  := by
  rcases s with ⟨mode, tokens, outer⟩
  cases mode <;> rfl

/-- The character at which a word ends is read as if the word had ended before. -/
theorem step_boundary (s : Scan) {c : Char} (hc : isBoundary c) :
  s.step c = s.settled.step c
  := by
  rcases s with ⟨mode, tokens, outer⟩
  cases mode with
  | word shape cs =>
      rw [isBoundary] at hc
      simp only [step, goOn, start]
      generalize Role.of c = role at hc ⊢
      cases role <;> first | rfl | cases hc
  | minus => exact if_neg (not_minus_of_boundary hc)
  | between | quoted _ _ | escaped _ _ | comment | stray => rfl

/-- No word goes on after the character at which it ends. -/
theorem settled_start {s : Scan} (hs : s.settled = s) {c : Char} (hc : isBoundary c) :
  (s.start c).settled = s.start c
  := by
  rw [isBoundary] at hc
  rw [start]
  generalize Role.of c = role at hc ⊢
  cases role with
  | blank => exact hs
  | opening | comma => rfl
  | closing =>
      simp only [startAs, close]
      split <;> rfl
  | minus | mark _ | other => cases hc

theorem settled_step_boundary (s : Scan) {c : Char} (hc : isBoundary c)
    (hmode : (s.step c).settled.mode = .between) :
  (s.step c).settled = s.step c
  := by
  rw [step_boundary s hc] at hmode ⊢
  have hs := settled_settled s
  generalize s.settled = s at hs hmode
  rcases s with ⟨mode, tokens, outer⟩
  cases mode with
  | between => exact settled_start hs hc
  | word _ _ | minus => exact absurd (congrArg Scan.mode hs) nofun
  | quoted q cs =>
      simp only [step, if_neg (not_quote_of_boundary hc q)]
      split <;> rfl
  | escaped q cs => rfl
  | comment =>
      simp only [step]
      split <;> rfl
  | stray => rfl

/-! ### Reading inside of other tokens -/

/-- The tokens of the innermost group and of those around it, when the outermost ones are read
after some tokens, inside of open groups. -/
def graft (base : List Token) (around : List (List Token)) (tokens : List Token) :
    List (List Token) → List Token × List (List Token)
  | [] => (base ++ tokens, around)
  | t :: outer => (tokens, (graft base around t outer).1 :: (graft base around t outer).2)

/-- The state of reading after some tokens, inside of open groups. -/
def nestedIn (base : List Token) (around : List (List Token)) (s : Scan) : Scan :=
  ⟨s.mode, (graft base around s.tokens s.outer).1, (graft base around s.tokens s.outer).2⟩

variable {base : List Token} {around : List (List Token)}

theorem graft_append (tokens added : List Token) (outer : List (List Token)) :
  graft base around (tokens ++ added) outer
    = ((graft base around tokens outer).1 ++ added, (graft base around tokens outer).2)
  := by
  cases outer with
  | nil => simp only [graft, List.append_assoc]
  | cons t rest => rfl

/-- A token is read after those before it. -/
theorem nestedIn_append (mode : Mode) (tokens added : List Token) (outer : List (List Token)) :
  nestedIn base around ⟨mode, tokens ++ added, outer⟩
    = ⟨mode, (graft base around tokens outer).1 ++ added, (graft base around tokens outer).2⟩
  := by
  simp only [nestedIn, graft_append]

theorem settled_nestedIn (s : Scan) :
  (s.nestedIn base around).settled = s.settled.nestedIn base around
  := by
  rcases s with ⟨mode, tokens, outer⟩
  cases mode with
  | word _ _ | minus => exact (nestedIn_append _ _ _ _).symm
  | between | quoted _ _ | escaped _ _ | comment | stray => rfl

/-- A group that is open around the text is not closed within it. -/
theorem close_nestedIn (s : Scan) (h : around = [] ∨ s.close.mode ≠ .stray) :
  (s.nestedIn base around).close = s.close.nestedIn base around
  := by
  rcases s with ⟨mode, tokens, outer⟩
  cases outer with
  | nil =>
      rcases h with rfl | h
      · rfl
      · exact absurd rfl h
  | cons t rest => exact (nestedIn_append _ _ _ _).symm

theorem startAs_nestedIn (s : Scan) (c : Char) (role : Role)
    (h : around = [] ∨ (s.startAs c role).mode ≠ .stray) :
  (s.nestedIn base around).startAs c role = (s.startAs c role).nestedIn base around
  := by
  cases role with
  | closing => exact close_nestedIn s h
  | comma => exact (nestedIn_append _ _ _ _).symm
  | blank | opening | minus | mark _ | other => rfl

theorem goOnAs_nestedIn (s : Scan) (shape : Shape) (cs : List Char) (c : Char) (role : Role)
    (h : around = [] ∨ (s.goOnAs shape cs c role).mode ≠ .stray) :
  (s.nestedIn base around).goOnAs shape cs c role = (s.goOnAs shape cs c role).nestedIn base around
  := by
  cases role with
  | minus =>
      by_cases hshape : shape = .exponent
      · simp only [goOnAs, if_pos hshape]
        rfl
      · simp only [goOnAs, if_neg hshape] at h ⊢
        rw [settled_nestedIn]
        exact startAs_nestedIn s.settled c _ h
  | mark _ | other => rfl
  | blank | opening | closing | comma =>
      simp only [goOnAs, settled_nestedIn]
      exact startAs_nestedIn s.settled c _ h

theorem step_nestedIn (s : Scan) (c : Char) (h : around = [] ∨ (s.step c).mode ≠ .stray) :
  (s.nestedIn base around).step c = (s.step c).nestedIn base around
  := by
  rcases s with ⟨mode, tokens, outer⟩
  cases mode with
  | between => exact startAs_nestedIn _ c _ h
  | minus =>
      by_cases hc : c = '-'
      · simp only [step, nestedIn, if_pos hc]
        exact (nestedIn_append _ _ _ _).symm
      · simp only [step, if_neg hc] at h ⊢
        rw [settled_nestedIn]
        exact startAs_nestedIn _ c _ h
  | word shape cs => exact goOnAs_nestedIn _ shape cs c _ h
  | quoted q cs =>
      simp only [step, nestedIn]
      split
      · rfl
      · split <;> rfl
  | escaped q cs => rfl
  | comment =>
      simp only [step, nestedIn]
      split <;> rfl
  | stray => rfl

theorem run_stray {s : Scan} (h : s.mode = .stray) (cs : List Char) :
  (s.run cs).mode = .stray
  := by
  induction cs with
  | nil => exact h
  | cons c cs ih =>
      have hstep : s.step c = s := by
        simp only [step, h]
      rw [run_cons, hstep]
      exact ih

/-- A text is read after other tokens, inside of open groups, as it is read alone. -/
theorem run_nestedIn (cs : List Char) :
    ∀ s : Scan, around = [] ∨ (s.run cs).mode ≠ .stray →
      (s.nestedIn base around).run cs = (s.run cs).nestedIn base around := by
  induction cs with
  | nil => exact fun _ _ => rfl
  | cons c cs ih =>
      intro s h
      have hstep : around = [] ∨ (s.step c).mode ≠ .stray :=
        h.imp_right fun hrun hstray => hrun (run_stray hstray cs)
      rw [run_cons, step_nestedIn s c hstep]
      exact ih (s.step c) h

end Scan

theorem starts_append {s : String} (t : String) (h : starts s) :
  starts (s ++ t)
  := by
  rw [starts, String.toList_append, List.head?_append]
  rw [starts] at h
  cases hs : s.toList.head? with
  | none => rw [hs] at h; cases h
  | some c => rwa [hs] at h

theorem ends_append (s : String) {t : String} (h : ends t) :
  ends (s ++ t)
  := by
  rw [ends, String.toList_append, List.getLast?_append]
  rw [ends] at h
  cases ht : t.toList.getLast? with
  | none => rw [ht] at h; cases h
  | some c => rwa [ht] at h

/-- A text has tokens just when it spells them. -/
theorem tokens?_eq_some {text : String} {ts : List Token} :
  tokens? text = some ts ↔ Spells text ts
  := by
  rw [tokens?, Spells]
  generalize (Scan.initial.run text.toList).settled = s
  obtain ⟨mode, tokens, outer⟩ := s
  constructor
  · intro h
    split at h
    · simp only at *
      subst_vars
      cases h
      rfl
    · cases h
  · rintro h
    cases h
    rfl

namespace Spells

variable {s t : String} {ts us : List Token}

/-- A text is read as its tokens wherever it stands. -/
theorem run (h : Spells s ts) (base : List Token) (around : List (List Token)) :
  (Scan.run ⟨.between, base, around⟩ s.toList).settled = ⟨.between, base ++ ts, around⟩
  := by
  have hstray : (Scan.initial.run s.toList).mode ≠ .stray := by
    intro hstray
    have hmode := congrArg Scan.mode h
    simp only [Scan.settled, hstray] at hmode
    cases hmode
  have hnested : (Scan.initial.nestedIn base around).run s.toList = _ :=
    Scan.run_nestedIn s.toList Scan.initial (.inr hstray)
  have hinitial : Scan.initial.nestedIn base around = ⟨.between, base, around⟩ := by
    simp only [Scan.nestedIn, Scan.graft, Scan.initial, List.append_nil]
  rw [hinitial] at hnested
  rw [hnested, Scan.settled_nestedIn, show _ = _ from h]
  rfl

/-- No word goes on after a text that ends with a boundary. -/
theorem run_of_ends (h : Spells s ts) (hends : ends s) (base : List Token)
    (around : List (List Token)) :
  Scan.run ⟨.between, base, around⟩ s.toList = ⟨.between, base ++ ts, around⟩
  := by
  rw [ends, Option.any_eq_true] at hends
  obtain ⟨c, hlast, hc⟩ := hends
  obtain ⟨cs, htext⟩ := List.getLast?_eq_some_iff.mp hlast
  have hsettled := h.run base around
  rw [htext, Scan.run_append] at hsettled ⊢
  rw [← hsettled]
  exact (Scan.settled_step_boundary _ hc (congrArg Scan.mode hsettled)).symm

/-- The end of a text whose next character ends words. -/
theorem run_append (h : Spells s ts) {rest : List Char} (hrest : rest.head?.any isBoundary)
    (base : List Token) (around : List (List Token)) :
  Scan.run ⟨.between, base, around⟩ (s.toList ++ rest)
    = Scan.run ⟨.between, base ++ ts, around⟩ rest
  := by
  rw [Option.any_eq_true] at hrest
  obtain ⟨c, hfirst, hc⟩ := hrest
  obtain ⟨cs, rfl⟩ := List.head?_eq_some_iff.mp hfirst
  rw [Scan.run_append, Scan.run_cons, Scan.step_boundary _ hc, h.run base around, Scan.run_cons]

theorem append_of_starts (hs : Spells s ts) (ht : Spells t us) (h : starts t) :
  Spells (s ++ t) (ts ++ us)
  := by
  rw [Spells, String.toList_append, Scan.initial, hs.run_append h]
  exact ht.run ts []

theorem append_of_ends (hs : Spells s ts) (ht : Spells t us) (h : ends s) :
  Spells (s ++ t) (ts ++ us)
  := by
  rw [Spells, String.toList_append, Scan.run_append, Scan.initial, hs.run_of_ends h]
  exact ht.run ts []

/-- Two texts with a third one between them at which words end. -/
theorem parted (hs : Spells s ts) (ht : Spells t us) {sep : String} {ks : List Token}
    (hsep : Spells sep ks) (hstarts : starts sep) (hends : ends sep) :
  Spells (s ++ sep ++ t) (ts ++ ks ++ us)
  := (hs.append_of_starts hsep hstarts).append_of_ends ht (ends_append s hends)

/-- A text between parentheses. -/
theorem group (h : Spells s ts) :
  Spells ("(" ++ s ++ ")") [.group ts]
  := by
  have hopen : "(".toList = ['('] := rfl
  have hclose : ")".toList = [')'] := rfl
  rw [Spells, String.toList_append, String.toList_append, hopen, hclose, List.append_assoc,
    List.singleton_append, Scan.run_cons,
    show Scan.initial.step '(' = ⟨.between, [], [[]]⟩ from rfl, h.run_append rfl]
  rfl

/-- A name in front of a text between parentheses. -/
theorem call (hs : Spells s ts) (ht : Spells t us) {opening : String} (h : opening = s ++ "(") :
  Spells (opening ++ t ++ ")") (ts ++ [.group us])
  := by
  have hsplit : opening ++ t ++ ")" = s ++ ("(" ++ t ++ ")") := by
    simp only [h, String.append_assoc]
  rw [hsplit]
  exact hs.append_of_starts ht.group (starts_append _ (starts_append _ rfl))

/-- A name in front of two texts between parentheses, with one between them at which words end. -/
theorem call_parted (hs : Spells s ts) (ht : Spells t us) {u sep opening : String}
    {vs ks : List Token} (hu : Spells u vs) (hsep : Spells sep ks) (hstarts : starts sep)
    (hends : ends sep) (h : opening = s ++ "(") :
  Spells (opening ++ t ++ sep ++ u ++ ")") (ts ++ [.group (us ++ ks ++ vs)])
  := by
  have hsplit : opening ++ t ++ sep ++ u ++ ")" = opening ++ (t ++ sep ++ u) ++ ")" := by
    simp only [String.append_assoc]
  rw [hsplit]
  exact hs.call (ht.parted hu hsep hstarts hends) h

/-- Texts that are joined by one at which words end. -/
theorem joinWith {sep : String} {ks : List Token} (hsep : Spells sep ks) (hstarts : starts sep)
    (hends : ends sep) {texts : List String} {parts : List (List Token)}
    (h : List.Forall₂ Spells texts parts) :
  Spells (joinWith sep texts) (separated ks parts)
  := by
  induction h with
  | nil => rfl
  | @cons s ts texts parts hs hrest ih =>
      cases hrest with
      | nil => exact hs
      | cons ht hrest => exact hs.parted ih hsep hstarts hends

/-- The tokens of a text that starts in the middle of others. -/
theorem of_run {mode : Mode} {base : List Token} {cs : List Char}
    (h : (Scan.run ⟨mode, base, []⟩ cs).settled = ⟨.between, ts, []⟩) :
  ∃ us, ts = base ++ us
  := by
  have hnested : (⟨mode, base, []⟩ : Scan) = Scan.nestedIn base [] ⟨mode, [], []⟩ := by
    simp only [Scan.nestedIn, Scan.graft, List.append_nil]
  rw [hnested, Scan.run_nestedIn cs _ (.inl rfl), Scan.settled_nestedIn] at h
  generalize (Scan.run ⟨mode, [], []⟩ cs).settled = s at h
  obtain ⟨mode, tokens, outer⟩ := s
  cases outer with
  | nil =>
      have htokens := congrArg Scan.tokens h
      exact ⟨tokens, htokens.symm⟩
  | cons t rest => exact absurd (congrArg Scan.outer h) nofun

/-- A minus sign in front of a text that starts with none. -/
theorem negative (h : Spells s ts) (hs : s.toList.head? ≠ some '-') :
  Spells ("-" ++ s) (.minus :: ts)
  := by
  have hminus : Scan.initial.step '-' = ⟨.minus, [], []⟩ := rfl
  rw [Spells, String.toList_append, show "-".toList = ['-'] from rfl, List.singleton_append,
    Scan.run_cons, hminus]
  have hrun := h.run [.minus] []
  cases htext : s.toList with
  | nil =>
      rw [htext] at hrun
      exact hrun
  | cons c cs =>
      rw [htext] at hrun hs
      have hc : c ≠ '-' := fun hc => hs (congrArg some hc)
      have hstep : Scan.step ⟨.minus, [], []⟩ c = Scan.step ⟨.between, [.minus], []⟩ c := if_neg hc
      rw [Scan.run_cons, hstep]
      exact hrun

end Spells

/-- Whether tokens start with a minus sign, alone or in front of another one. -/
def leads : List Token → Bool
  | .minus :: _ | .comment :: _ => true
  | _ => false

/-- Tokens start with a minus sign when their text does. -/
theorem Spells.leads {s : String} {ts : List Token} (h : Spells s ts)
    (hs : s.toList.head? = some '-') :
  leads ts
  := by
  obtain ⟨cs, htext⟩ := List.head?_eq_some_iff.mp hs
  have hminus : Scan.initial.step '-' = ⟨.minus, [], []⟩ := rfl
  rw [Spells, htext, Scan.run_cons, hminus] at h
  cases cs with
  | nil =>
      cases h
      rfl
  | cons c cs =>
      rw [Scan.run_cons] at h
      by_cases hc : c = '-'
      · have hstep : Scan.step ⟨.minus, [], []⟩ c = ⟨.comment, [.comment], []⟩ := if_pos hc
        rw [hstep] at h
        obtain ⟨us, rfl⟩ := of_run h
        rfl
      · have hstep : Scan.step ⟨.minus, [], []⟩ c = Scan.step ⟨.between, [.minus], []⟩ c := if_neg hc
        rw [hstep, ← Scan.run_cons] at h
        obtain ⟨us, rfl⟩ := of_run h
        rfl

end RelSql.Sql
