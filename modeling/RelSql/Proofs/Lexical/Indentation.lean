import RelSql.Proofs.Lexical.Token

/-!
# Indentation

Spaces between tokens do not change what a text is read as, so an indented text is read as
the same tokens.  Only the words with newlines in their quotes change: spaces stand behind
each newline.  Where texts are put together and indented, each part stands in the whole, with the
spaces of all indentations around it behind each of its newlines; a part of one line stands there
as it is.
-/

namespace RelSql.Sql

open Text

mutual

/-- A token of a text whose lines are moved by `pad`. -/
def Token.pad (pad : List Char) : Token → Token
  | .keyword k => .keyword k
  | .word cs => .word (padBreaks pad cs)
  | .comma => .comma
  | .minus => .minus
  | .comment => .comment
  | .group ts => .group (padAll pad ts)

/-- Tokens of a text whose lines are moved by `pad`. -/
def padAll (pad : List Char) : List Token → List Token
  | [] => []
  | t :: ts => t.pad pad :: padAll pad ts

end

variable {p : List Char}

theorem padAll_eq_map (ts : List Token) :
  padAll p ts = ts.map (Token.pad p)
  := by
  induction ts with
  | nil => rfl
  | cons t ts ih => rw [padAll, ih, List.map_cons]

theorem padAll_append (ts us : List Token) :
  padAll p (ts ++ us) = padAll p ts ++ padAll p us
  := by
  simp only [padAll_eq_map, List.map_append]

theorem padBreaks_append (cs ds : List Char) :
  padBreaks p (cs ++ ds) = padBreaks p cs ++ padBreaks p ds
  := List.flatMap_append

theorem padBreaks_cons (c : Char) (cs : List Char) :
  padBreaks p (c :: cs) = (if c = '\n' then c :: p else [c]) ++ padBreaks p cs
  := List.flatMap_cons

/-- A text of one line stays as it is. -/
theorem padBreaks_of_not_mem {cs : List Char} (h : '\n' ∉ cs) :
  padBreaks p cs = cs
  := by
  induction cs with
  | nil => rfl
  | cons c cs ih =>
      rw [List.mem_cons, not_or] at h
      rw [padBreaks_cons, if_neg (Ne.symm h.1), ih h.2, List.singleton_append]

theorem mem_padBreaks {cs : List Char} (h : '\n' ∈ cs) :
  '\n' ∈ padBreaks p cs
  := List.mem_flatMap.mpr ⟨'\n', h, List.mem_cons_self⟩

theorem Token.ofWord_pad (cs : List Char) :
  Token.ofWord (padBreaks p cs) = (Token.ofWord cs).pad p
  := by
  by_cases h : '\n' ∈ cs
  · simp only [ofWord, Keyword.read?_eq_none h rfl, Keyword.read?_eq_none (mem_padBreaks h) rfl,
      Token.pad]
  · rw [padBreaks_of_not_mem h, ofWord]
    split
    · rfl
    · rw [Token.pad, padBreaks_of_not_mem h]

/-- The place of a character in a text whose lines are moved by `p`. -/
def Mode.pad (p : List Char) : Mode → Mode
  | .word shape cs => .word shape (padBreaks p cs)
  | .quoted q cs => .quoted q (padBreaks p cs)
  | .escaped q cs => .escaped q (padBreaks p cs)
  | mode => mode

namespace Scan

/-- The state of reading a text whose lines are moved by `p`. -/
def pad (p : List Char) (s : Scan) : Scan :=
  ⟨s.mode.pad p, padAll p s.tokens, s.outer.map (padAll p)⟩

attribute [local simp] pad Mode.pad

theorem settled_pad (s : Scan) :
  (s.pad p).settled = s.settled.pad p
  := by
  rcases s with ⟨mode, tokens, outer⟩
  cases mode with
  | word shape cs => simp [settled, padAll_append, padAll, Token.ofWord_pad]
  | minus => simp [settled, padAll_append, padAll, Token.pad]
  | between | quoted _ _ | escaped _ _ | comment | stray => rfl

theorem close_pad (s : Scan) :
  (s.pad p).close = s.close.pad p
  := by
  rcases s with ⟨mode, tokens, outer⟩
  cases outer with
  | nil => rfl
  | cons t rest => simp [close, padAll_append, padAll, Token.pad]

/-- Characters within a line are read as before. -/
theorem startAs_pad (s : Scan) {c : Char} (hc : c ≠ '\n') (role : Role) :
  (s.pad p).startAs c role = (s.startAs c role).pad p
  := by
  have hword : padBreaks p [c] = [c] :=
    padBreaks_of_not_mem fun h => hc (List.mem_singleton.mp h).symm
  cases role with
  | blank | opening | minus => rfl
  | closing => exact close_pad s
  | comma => simp [startAs, padAll_append, padAll, Token.pad]
  | mark q => simp [startAs, hword]
  | other => simp [startAs, hword]

theorem goOnAs_pad (s : Scan) (shape : Shape) (cs : List Char) {c : Char} (hc : c ≠ '\n')
    (role : Role) :
  (s.pad p).goOnAs shape (padBreaks p cs) c role = (s.goOnAs shape cs c role).pad p
  := by
  have hword : padBreaks p cs ++ [c] = padBreaks p (cs ++ [c]) := by
    rw [padBreaks_append, padBreaks_of_not_mem fun h => hc (List.mem_singleton.mp h).symm]
  cases role with
  | minus =>
      by_cases hshape : shape = .exponent
      · simp only [goOnAs, if_pos hshape, hword, Scan.pad, Mode.pad]
      · simp only [goOnAs, if_neg hshape, settled_pad]
        exact startAs_pad s.settled hc _
  | mark q => simp only [goOnAs, hword, Scan.pad, Mode.pad]
  | other => simp only [goOnAs, hword, Scan.pad, Mode.pad]
  | blank | opening | closing | comma =>
      simp only [goOnAs, settled_pad]
      exact startAs_pad s.settled hc _

theorem step_pad (s : Scan) {c : Char} (hc : c ≠ '\n') :
  (s.pad p).step c = (s.step c).pad p
  := by
  rcases s with ⟨mode, tokens, outer⟩
  have hword : ∀ cs, padBreaks p cs ++ [c] = padBreaks p (cs ++ [c]) := by
    intro cs
    rw [padBreaks_append, padBreaks_of_not_mem fun h => hc (List.mem_singleton.mp h).symm]
  cases mode with
  | between => exact startAs_pad _ hc _
  | minus =>
      by_cases hminus : c = '-'
      · simp only [step, Scan.pad, Mode.pad, if_pos hminus, padAll_append, padAll, Token.pad]
      · have hleft : ∀ tokens outer, step ⟨.minus, tokens, outer⟩ c
            = (settled ⟨.minus, tokens, outer⟩).start c := fun _ _ => if_neg hminus
        calc (Scan.pad p ⟨.minus, tokens, outer⟩).step c
            = (Scan.pad p ⟨.minus, tokens, outer⟩).settled.start c := hleft _ _
          _ = ((settled ⟨.minus, tokens, outer⟩).pad p).start c := by rw [settled_pad]
          _ = ((settled ⟨.minus, tokens, outer⟩).start c).pad p := startAs_pad _ hc _
          _ = (step ⟨.minus, tokens, outer⟩ c).pad p := by rw [hleft]
  | word shape cs => exact goOnAs_pad _ shape cs hc _
  | quoted q cs =>
      simp only [step, Scan.pad, Mode.pad]
      split
      · simp only [hword]
      · split <;> simp only [hword]
  | escaped q cs => simp only [step, Scan.pad, Mode.pad, hword]
  | comment => simp only [step, Scan.pad, Mode.pad, if_neg hc]
  | stray => rfl

/-- Spaces between tokens are skipped. -/
theorem run_spaces {s : Scan} (hs : s.mode = .between) (n : Nat) :
  s.run (List.replicate n ' ') = s
  := by
  have hstep : s.step ' ' = s := by
    simp only [step, hs]
    rfl
  induction n with
  | zero => rfl
  | succ n ih => rw [List.replicate_succ, run_cons, hstep, ih]

/-- Spaces in quotes belong to the word. -/
theorem run_spaces_quoted (q : Quote) (tokens : List Token) (outer : List (List Token)) (n : Nat) :
    ∀ cs, run ⟨.quoted q cs, tokens, outer⟩ (List.replicate n ' ')
      = ⟨.quoted q (cs ++ List.replicate n ' '), tokens, outer⟩ := by
  induction n with
  | zero => exact fun cs => by rw [List.replicate_zero, List.append_nil, run_nil]
  | succ n ih =>
      intro cs
      have hstep : step ⟨.quoted q cs, tokens, outer⟩ ' ' = ⟨.quoted q (cs ++ [' ']), tokens, outer⟩ := by
        cases q <;> rfl
      rw [List.replicate_succ, run_cons, hstep, ih, List.append_assoc, List.singleton_append]

/-- The end of a line, with the spaces in front of the next one. -/
theorem step_break (s : Scan) (n : Nat) :
  ((s.pad (List.replicate n ' ')).step '\n').run (List.replicate n ' ')
    = (s.step '\n').pad (List.replicate n ' ')
  := by
  have hword : ∀ cs, padBreaks (List.replicate n ' ') (cs ++ ['\n'])
      = padBreaks (List.replicate n ' ') cs ++ ['\n'] ++ List.replicate n ' ' := by
    intro cs
    rw [padBreaks_append, List.append_assoc]
    congr 1
    rw [padBreaks, List.flatMap_singleton, if_pos rfl, List.singleton_append]
  rcases s with ⟨mode, tokens, outer⟩
  cases mode with
  | between => exact run_spaces rfl n
  | word shape cs =>
      have hsettled := settled_pad (p := List.replicate n ' ') ⟨.word shape cs, tokens, outer⟩
      exact (run_spaces rfl n).trans hsettled
  | minus =>
      have hsettled := settled_pad (p := List.replicate n ' ') ⟨.minus, tokens, outer⟩
      exact (run_spaces rfl n).trans hsettled
  | quoted q cs =>
      have hstep : ∀ cs tokens outer, step ⟨.quoted q cs, tokens, outer⟩ '\n'
          = ⟨.quoted q (cs ++ ['\n']), tokens, outer⟩ := by
        cases q <;> exact fun _ _ _ => rfl
      simp only [Scan.pad, Mode.pad, hstep, run_spaces_quoted, hword]
  | escaped q cs => simp only [Scan.pad, Mode.pad, step, run_spaces_quoted, hword]
  | comment => exact run_spaces rfl n
  | stray =>
      have hrun : ∀ cs, run ⟨.stray, padAll (List.replicate n ' ') tokens,
          outer.map (padAll (List.replicate n ' '))⟩ cs = ⟨.stray, padAll (List.replicate n ' ') tokens,
          outer.map (padAll (List.replicate n ' '))⟩ := by
        intro cs
        induction cs with
        | nil => rfl
        | cons c cs ih => exact ih
      exact hrun _

theorem run_pad (n : Nat) (cs : List Char) :
    ∀ s : Scan, (s.pad (List.replicate n ' ')).run (padBreaks (List.replicate n ' ') cs)
      = (s.run cs).pad (List.replicate n ' ') := by
  induction cs with
  | nil => exact fun _ => rfl
  | cons c cs ih =>
      intro s
      rw [padBreaks_cons, run_append, run_cons, ← ih]
      congr 1
      by_cases hc : c = '\n'
      · subst hc
        exact step_break s n
      · rw [if_neg hc]
        exact step_pad s hc

end Scan

/-- An indented text spells the same tokens, up to the newlines in quotes. -/
theorem Spells.indent {s : String} {ts : List Token} (h : Spells s ts) (n : Nat) :
  Spells (indent n s) (padAll (List.replicate n ' ') ts)
  := by
  rw [Spells, Text.indent, String.toList_ofList, Scan.run_append, Scan.run_spaces rfl]
  have hinitial : Scan.initial.pad (List.replicate n ' ') = Scan.initial := rfl
  rw [← hinitial, Scan.run_pad, Scan.settled_pad, show _ = _ from h]
  rfl

end RelSql.Sql

/-! ### Texts in texts -/

namespace RelSql.Text

open Sql

/-- A text stands in another one, with some spaces behind each of its newlines. -/
def Within (inner outer : String) : Prop :=
  ∃ k before after,
    outer.toList = before ++ padBreaks (List.replicate k ' ') inner.toList ++ after

theorem padBreaks_nil (cs : List Char) :
  padBreaks [] cs = cs
  := by
  induction cs with
  | nil => rfl
  | cons c cs ih =>
      rw [padBreaks_cons, ih, ite_self]
      rfl

/-- A text that is moved twice is moved by all spaces. -/
theorem padBreaks_padBreaks (m n : Nat) (cs : List Char) :
  padBreaks (List.replicate m ' ') (padBreaks (List.replicate n ' ') cs)
    = padBreaks (List.replicate (m + n) ' ') cs
  := by
  induction cs with
  | nil => rfl
  | cons c cs ih =>
      rw [padBreaks_cons, padBreaks_append, ih, padBreaks_cons]
      congr 1
      by_cases hc : c = '\n'
      case pos =>
          have hspaces : '\n' ∉ List.replicate n ' ' := by
            intro hmem
            exact absurd (List.eq_of_mem_replicate hmem) (by decide)
          rw [if_pos hc, if_pos hc, padBreaks_cons, if_pos hc, padBreaks_of_not_mem hspaces,
            List.cons_append, ← List.replicate_add]
      case neg =>
          rw [if_neg hc, if_neg hc, padBreaks_cons, if_neg hc]
          rfl

namespace Within

variable {s t u : String}

theorem refl (s : String) :
  Within s s
  := ⟨0, [], [], by rw [List.replicate_zero, padBreaks_nil, List.nil_append, List.append_nil]⟩

theorem trans (hst : Within s t) (htu : Within t u) :
  Within s u
  := by
  obtain ⟨m, before, after, ht⟩ := hst
  obtain ⟨n, before', after', hu⟩ := htu
  refine ⟨n + m, before' ++ padBreaks (List.replicate n ' ') before,
    padBreaks (List.replicate n ' ') after ++ after', ?_⟩
  rw [hu, ht, padBreaks_append, padBreaks_append, padBreaks_padBreaks]
  simp only [List.append_assoc]

theorem left (h : Within s t) (u : String) :
  Within s (t ++ u)
  := by
  obtain ⟨k, before, after, ht⟩ := h
  exact ⟨k, before, after ++ u.toList, by rw [String.toList_append, ht, List.append_assoc]⟩

theorem right (h : Within s u) (t : String) :
  Within s (t ++ u)
  := by
  obtain ⟨k, before, after, hu⟩ := h
  exact ⟨k, t.toList ++ before, after, by
    rw [String.toList_append, hu]
    simp only [List.append_assoc]⟩

theorem indent (h : Within s t) (n : Nat) :
  Within s (indent n t)
  := h.trans ⟨n, List.replicate n ' ', [], by
    rw [Text.indent, String.toList_ofList, List.append_nil]⟩

/-- A text stands between two others. -/
theorem between (h : Within s t) (before after : String) :
  Within s (before ++ t ++ after)
  := (h.right before).left after

theorem joinWith {sep : String} {texts : List String} (h : ∃ t ∈ texts, Within s t) :
  Within s (joinWith sep texts)
  := by
  induction texts with
  | nil =>
      obtain ⟨t, ht, _⟩ := h
      exact absurd ht List.not_mem_nil
  | cons text texts ih =>
      obtain ⟨t, ht, hst⟩ := h
      cases texts with
      | nil => exact List.mem_singleton.mp ht ▸ hst
      | cons next texts =>
          rcases List.mem_cons.mp ht with rfl | ht
          · exact (hst.left sep).left _
          · exact (ih ⟨t, ht, hst⟩).right _

/-- A text of one line stands in the other one as it is. -/
theorem infix_of_line (h : Within s t) (hs : '\n' ∉ s.toList) :
  s.toList <:+: t.toList
  := by
  obtain ⟨k, before, after, ht⟩ := h
  rw [padBreaks_of_not_mem hs] at ht
  exact ⟨before, after, ht.symm⟩

end Within

end RelSql.Text
