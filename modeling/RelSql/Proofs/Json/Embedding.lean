import Mathlib.Algebra.Order.BigOperators.Group.List
import Mathlib.Data.Bool.AllAny
import Mathlib.Data.List.Perm.Subperm
import RelSql.Proofs.Json.Reading
import RelSql.Proofs.Lexical.Literals
import RelSql.Definition.Table

/-!
# Documents in string literals

A document that is written between single quotes as it is ends at its first apostrophe, and the
backslashes of its own strings are taken by the literal.  What is left is never the same document
again when a string of it has a backslash: each character that JSON escapes takes more weight to
be read than the literal leaves of it.
-/

namespace RelSql.Json

open Number Sql

variable {j : Json} {cs ds rest tail s t : List Char}

/-! ### Letters -/

mutual

/-- The characters of the words, the keys and the strings of a document. -/
def letters : Json → List Char
  | .null => "null".toList
  | .bool true => "true".toList
  | .bool false => "false".toList
  | .number _ => []
  | .string s => s.toList
  | .array items => lettersOfItems items
  | .object members => lettersOfMembers members

/-- The letters of the items of an array. -/
def lettersOfItems : List Json → List Char
  | [] => []
  | item :: items => item.letters ++ lettersOfItems items

/-- The letters of the members of an object, keys and values. -/
def lettersOfMembers : List (String × Json) → List Char
  | [] => []
  | (key, value) :: members => key.toList ++ value.letters ++ lettersOfMembers members

end

/-- The character is none of those that count: an apostrophe, a backslash, and the letter of an
escape by its number. -/
abbrev IsMark (c : Char) : Prop :=
  c ≠ '\'' ∧ c ≠ '\\' ∧ c ≠ 'u'

/-- A text is spelled with letters, each as in a string, and with marks between them. -/
inductive Spelt : List Char → List Char → Prop where
  | nil : Spelt [] []
  | mark {c : Char} {cs s : List Char} (hc : IsMark c) (h : Spelt cs s) :
      Spelt (c :: cs) s
  | letter (c : Char) {cs s : List Char} (h : Spelt cs s) : Spelt (escapeChar c ++ cs) (c :: s)

theorem Spelt.append (hs : Spelt cs s) (ht : Spelt ds t) :
  Spelt (cs ++ ds) (s ++ t)
  := by
  induction hs with
  | nil => exact ht
  | mark hc _ ih => exact .mark hc ih
  | letter c _ ih =>
      rw [List.append_assoc]
      exact .letter c ih

theorem Spelt.marks (h : ∀ c ∈ cs, IsMark c) :
  Spelt cs []
  := by
  induction cs with
  | nil => exact .nil
  | cons c cs ih =>
      exact .mark (h c List.mem_cons_self) (ih fun d hd => h d (List.mem_cons_of_mem c hd))

theorem Spelt.letters (s : List Char) :
  Spelt (s.flatMap escapeChar) s
  := by
  induction s with
  | nil => exact .nil
  | cons c s ih => exact .letter c ih

theorem Spelt.quote (s : String) :
  Spelt (quote s).toList s.toList
  := by
  rw [Json.quote, String.toList_ofList]
  have hclose : Spelt ['"'] [] := .marks (List.forall_mem_singleton.mpr (by decide))
  have hbody := (Spelt.letters s.toList).append hclose
  rw [List.append_nil] at hbody
  exact .mark (by decide) hbody

theorem padding_marks {depth : Nat} {c : Char} (h : c ∈ padding depth) :
  IsMark c
  := by
  obtain rfl | h := List.mem_cons.mp h
  · decide
  · rw [(List.mem_replicate.mp h).2]
    decide

theorem ofNumber_marks {c : Char} (h : OfNumber c) :
  IsMark c
  := by
  rcases h with h | h
  · exact digit_induction (P := fun c => IsMark c) (by decide) h
  · exact List.all_iff_forall_prop.mp rfl c h

section Parts

variable {α : Type} {text : α → String} {word : α → List Char} {parts : List α}

theorem Spelt.joined (h : ∀ a ∈ parts, Spelt (text a).toList (word a)) (depth : Nat) :
  Spelt (joined depth (parts.map text)) (parts.flatMap word)
  := by
  induction parts with
  | nil => exact .nil
  | cons first parts ih =>
      obtain ⟨hfirst, hparts⟩ := List.forall_mem_cons.mp h
      rw [List.flatMap_cons]
      cases parts with
      | nil =>
          rw [List.flatMap_nil, List.append_nil]
          exact hfirst
      | cons second parts =>
          rw [List.map_cons, List.map_cons, joined_cons]
          have hpadding : Spelt (padding depth) [] := .marks fun _ => padding_marks
          exact hfirst.append (.mark (by decide) (hpadding.append (ih hparts)))

theorem Spelt.block {opening closing : String} (h : ∀ a ∈ parts, Spelt (text a).toList (word a))
    (hopening : ∀ c ∈ opening.toList, IsMark c)
    (hclosing : ∀ c ∈ closing.toList, IsMark c) (depth : Nat) :
  Spelt (block opening closing depth (parts.map text)).toList (parts.flatMap word)
  := by
  by_cases hparts : parts = []
  · rw [hparts, List.map_nil, Json.block, if_pos rfl, String.toList_append]
    exact (Spelt.marks hopening).append (.marks hclosing)
  · have hpadding : ∀ depth, Spelt (padding depth) [] := fun _ => .marks fun _ => padding_marks
    rw [toList_block _ _ _ (mt List.map_eq_nil_iff.mp hparts),
      ← List.append_nil (parts.flatMap word)]
    exact (Spelt.marks hopening).append ((hpadding _).append
      ((Spelt.joined h _).append ((hpadding _).append (.marks hclosing))))

end Parts

theorem lettersOfItems_eq (items : List Json) :
  lettersOfItems items = items.flatMap letters
  := by
  induction items with
  | nil => rfl
  | cons item items ih => rw [lettersOfItems, ih, List.flatMap_cons]

theorem lettersOfMembers_eq (members : List (String × Json)) :
  lettersOfMembers members = members.flatMap fun m => m.1.toList ++ m.2.letters
  := by
  induction members with
  | nil => rfl
  | cons m members ih => rw [lettersOfMembers, ih, List.flatMap_cons]

/-- A document is spelled with its letters. -/
theorem Sound.spelt (hj : Sound j) (depth : Nat) :
  Spelt (j.prettyAt depth).toList j.letters
  := by
  induction hj generalizing depth with
  | null =>
      rw [prettyAt, letters]
      exact .letters "null".toList
  | bool b =>
      cases b with
      | false =>
          rw [prettyAt, letters]
          exact .letters "false".toList
      | true =>
          rw [prettyAt, letters]
          exact .letters "true".toList
  | number h =>
      obtain ⟨negative, c, ds, htext, _, hread⟩ := exists_number h
      obtain ⟨taken, htaken, hchars⟩ := (readNumber?_local hread).1
      rw [prettyAt, letters, htext, htaken, List.append_nil]
      apply Spelt.marks
      rw [List.forall_mem_append]
      refine ⟨?_, fun c hc => ofNumber_marks (hchars c hc)⟩
      cases negative with
      | false => exact fun _ h => absurd h List.not_mem_nil
      | true => exact List.forall_mem_singleton.mpr (by decide)
  | string s =>
      rw [prettyAt, letters]
      exact .quote s
  | @array items hitems ih =>
      rw [prettyAt, letters, prettyItems_eq, lettersOfItems_eq]
      exact .block (fun j hj => ih j hj (depth + 1)) (List.forall_mem_singleton.mpr (by decide))
        (List.forall_mem_singleton.mpr (by decide)) depth
  | @object members hkeys hmembers ih =>
      rw [prettyAt, letters, prettyMembers_eq, lettersOfMembers_eq]
      refine .block (fun m hm => ?_) (List.forall_mem_singleton.mpr (by decide))
        (List.forall_mem_singleton.mpr (by decide)) depth
      rw [String.toList_append, String.toList_append, List.append_assoc]
      have hcolon : Spelt ": ".toList [] := .marks (List.all_iff_forall_prop.mp rfl)
      exact (Spelt.quote m.1).append (hcolon.append (ih m hm (depth + 1)))

/-! ### Escapes -/

/-- A character is written as it is, or as two backslashes, or with a backslash in front of
another character and digits behind it. -/
theorem escapeChar_cases (c : Char) :
  (escapeChar c = [c] ∧ c ≠ '\\')
    ∨ (escapeChar c = ['\\', '\\'] ∧ c = '\\')
    ∨ (c ≠ '\\' ∧ ∃ d ds, escapeChar c = '\\' :: d :: ds ∧ d ∈ ['"', 'n', 'r', 't', 'b', 'f', 'u']
      ∧ ∀ h ∈ ds, IsMark h)
  := by
  have hdigit : ∀ n < 0x20, IsMark (hexDigit (n / 16))
      ∧ IsMark (hexDigit (n % 16)) := by decide
  by_cases hescape : c = '\\'
  · subst c
    exact .inr (.inl ⟨rfl, rfl⟩)
  rw [escapeChar]
  iterate 6
    split
    · exact .inr (.inr ⟨hescape, _, _, rfl, by decide, fun _ h => absurd h List.not_mem_nil⟩)
  split
  · rename_i hcontrol
    obtain ⟨hfirst, hsecond⟩ := hdigit _ hcontrol
    refine .inr (.inr ⟨hescape, _, _, rfl, by decide, ?_⟩)
    simp only [List.forall_mem_cons]
    exact ⟨by decide, by decide, hfirst, hsecond, fun _ h => absurd h List.not_mem_nil⟩
  · exact .inl ⟨rfl, hescape⟩

theorem eachEscape_cons {P : Char → Prop} {c : Char} (hc : c ≠ '\\') :
  EachEscape P (c :: cs) ↔ EachEscape P cs
  := by
  rw [EachEscape]
  · exact fun h _ => hc h
  · exact fun _ _ h _ => hc h

theorem eachEscape_append {P : Char → Prop} (h : ∀ c ∈ ds, c ≠ '\\') :
  EachEscape P (ds ++ cs) ↔ EachEscape P cs
  := by
  induction ds with
  | nil => rfl
  | cons c ds ih =>
      obtain ⟨hc, hds⟩ := List.forall_mem_cons.mp h
      rw [List.cons_append, eachEscape_cons hc, ih hds]

/-- No backslash of a document takes an apostrophe. -/
theorem Spelt.eachEscape (h : Spelt cs s) :
  EachEscape (fun c => c ≠ '\'') cs
  := by
  induction h with
  | nil => trivial
  | mark hc _ ih =>
      rw [eachEscape_cons hc.2.1]
      exact ih
  | letter c _ ih =>
      rcases escapeChar_cases c with ⟨htext, hc⟩ | ⟨htext, _⟩ | ⟨_, d, ds, htext, hd, hds⟩
      · rw [htext, List.singleton_append, eachEscape_cons hc]
        exact ih
      · rw [htext]
        exact ⟨by decide, ih⟩
      · rw [htext, List.cons_append, List.cons_append, EachEscape]
        refine ⟨fun h => absurd (h ▸ hd) (by decide), ?_⟩
        rw [eachEscape_append fun c hc => (hds c hc).2.1]
        exact ih

/-- The apostrophes of a document are those of its letters. -/
theorem Spelt.quote_mem (h : Spelt cs s) :
  '\'' ∈ cs ↔ '\'' ∈ s
  := by
  induction h with
  | nil => rfl
  | mark hc _ ih =>
      rw [List.mem_cons, ih, or_iff_right hc.1.symm]
  | letter c _ ih =>
      have hletter : '\'' ∈ escapeChar c ↔ '\'' = c := by
        rcases escapeChar_cases c with ⟨htext, _⟩ | ⟨htext, rfl⟩ | ⟨_, d, ds, htext, hd, hds⟩
        · rw [htext, List.mem_singleton]
        · rw [htext]
          decide
        · have hplain : '\'' ≠ c := by
            rintro rfl
            cases (List.cons.inj htext).1
          rw [htext, List.mem_cons, List.mem_cons]
          refine iff_of_false ?_ hplain
          rintro (h | rfl | h)
          · cases h
          · exact absurd hd (by decide)
          · exact (hds _ h).1 rfl
      rw [List.mem_append, List.mem_cons, ih, hletter]

/-! ### Weights -/

/-- What the literal takes of a document's backslashes: one of two is left, and none of any other
escape. -/
structure TakesEscapes (e : Escapes) : Prop where
  backslash : e.meaning '\\' = ['\\']
  other : ∀ c ∈ ['"', 'n', 'r', 't', 'b', 'f', 'u'], '\\' ∉ e.meaning c

/-- The weight of a character in a text: that of a backslash exceeds that of the letter which goes
on an escape by its number. -/
def weight (c : Char) : Nat :=
  if c = '\\' then 2 else if c = 'u' then 1 else 0

/-- The least weight of a text that a character of a string is read from. -/
def cost (c : Char) : Nat :=
  if c = '\\' then 3 else if escapeChar c = [c] then weight c else 2

/-- The sum over the characters of a text. -/
def total (f : Char → Nat) (cs : List Char) : Nat :=
  (cs.map f).sum

theorem total_append (f : Char → Nat) (cs ds : List Char) :
  total f (cs ++ ds) = total f cs + total f ds
  := by
  rw [total, List.map_append, List.sum_append]
  rfl

theorem total_cons (f : Char → Nat) (c : Char) (cs : List Char) :
  total f (c :: cs) = f c + total f cs
  := rfl

theorem unescape_cons {e : Escapes} {c : Char} (hc : c ≠ '\\') :
  e.unescape (c :: cs) = (e.unescape cs).map fun v => c :: v
  := by
  rw [Escapes.unescape]
  · exact fun h _ => hc h
  · exact fun _ _ h _ => hc h

theorem unescape_append {e : Escapes} (h : ∀ c ∈ ds, c ≠ '\\') :
  e.unescape (ds ++ cs) = (e.unescape cs).map fun v => ds ++ v
  := by
  induction ds with
  | nil => exact Option.map_id'.symm
  | cons c ds ih =>
      obtain ⟨hc, hds⟩ := List.forall_mem_cons.mp h
      rw [List.cons_append, unescape_cons hc, ih hds, Option.map_map]
      rfl

/-- A letter that is escaped. -/
def isEscaped (c : Char) : Bool :=
  escapeChar c != [c]

/-- A mark weighs nothing. -/
theorem total_mark {c : Char} (hc : IsMark c) (cs : List Char) :
  total weight (c :: cs) = total weight cs
  := by
  rw [total_cons, weight, if_neg hc.2.1, if_neg hc.2.2, Nat.zero_add]

theorem total_of_marks (h : ∀ c ∈ cs, IsMark c) :
  total weight cs = 0
  := by
  induction cs with
  | nil => rfl
  | cons c cs ih =>
      obtain ⟨hc, hcs⟩ := List.forall_mem_cons.mp h
      rw [total_mark hc, ih hcs]

/-- An escape other than that of a backslash leaves one unit of weight at most. -/
theorem TakesEscapes.total_meaning {e : Escapes} (he : TakesEscapes e) {c : Char}
    (hc : c ∈ ['"', 'n', 'r', 't', 'b', 'f', 'u']) :
  total weight (e.meaning c) ≤ 1
  := by
  have hbackslash := he.other c hc
  obtain h | h := e.short c
  · exact absurd (h ▸ List.mem_cons_self) hbackslash
  · match hmeaning : e.meaning c with
    | [] => exact Nat.zero_le 1
    | [d] =>
        rw [hmeaning, List.mem_singleton] at hbackslash
        rw [total_cons, weight, if_neg (Ne.symm hbackslash)]
        split <;> decide
    | _ :: _ :: _ =>
        rw [hmeaning] at h
        exact absurd h (by simp)

/-- What the literal leaves of a document weighs less than its letters cost, by one unit at least
for each letter that is escaped. -/
theorem Spelt.weight_of_unescape {e : Escapes} (he : TakesEscapes e) (h : Spelt cs s)
    {v : List Char} (hv : e.unescape cs = some v) :
  total weight v + s.countP isEscaped ≤ total cost s
  := by
  induction h generalizing v with
  | nil =>
      cases hv
      exact Nat.le_refl _
  | mark hc _ ih =>
      rw [unescape_cons hc.2.1] at hv
      obtain ⟨w, hw, rfl⟩ := Option.map_eq_some_iff.mp hv
      rw [total_mark hc]
      exact ih hw
  | letter c _ ih =>
      rw [total_cons, List.countP_cons]
      rcases escapeChar_cases c with ⟨htext, hc⟩ | ⟨htext, rfl⟩ | ⟨hc, d, ds, htext, hd, hds⟩
      · rw [htext, List.singleton_append, unescape_cons hc] at hv
        obtain ⟨w, hw, rfl⟩ := Option.map_eq_some_iff.mp hv
        have hescaped : isEscaped c = false := by rw [isEscaped, htext, bne_self_eq_false]
        have hrest := ih hw
        rw [total_cons, cost, if_neg hc, if_pos htext, hescaped, if_neg Bool.false_ne_true]
        omega
      · rw [htext, List.cons_append, List.cons_append, Escapes.unescape, if_neg (by decide),
          he.backslash] at hv
        obtain ⟨w, hw, rfl⟩ := Option.map_eq_some_iff.mp hv
        have hrest := ih hw
        have hleft : total weight (['\\'] ++ w) = 2 + total weight w := rfl
        have hcost : cost '\\' = 3 := rfl
        rw [hleft, hcost, if_pos (by decide)]
        omega
      · have hquote : d ≠ '\'' := by
          rintro rfl
          exact absurd hd (by decide)
        rw [htext, List.cons_append, List.cons_append, Escapes.unescape, if_neg hquote,
          unescape_append fun c hc => (hds c hc).2.1, Option.map_map] at hv
        obtain ⟨w, hw, rfl⟩ := Option.map_eq_some_iff.mp hv
        have hrest := ih hw
        have hmeaning := he.total_meaning hd
        have hplain : escapeChar c ≠ [c] := by
          rw [htext]
          exact fun h => hc (List.cons.inj h).1.symm
        have hescaped : isEscaped c = true := bne_iff_ne.mpr hplain
        simp only [Function.comp_apply, total_append, total_of_marks hds, Nat.zero_add]
        rw [cost, if_neg hc, if_neg hplain, if_pos hescaped]
        omega

/-! ### Costs -/

theorem cost_le (c : Char) :
  cost c ≤ 3 ∧ (c ≠ '\\' → cost c ≤ 2)
  := by
  have hweight : weight c ≤ 2 := by
    rw [weight]
    split
    · exact Nat.le_refl 2
    · split <;> decide
  rw [cost]
  split
  · exact ⟨Nat.le_refl 3, fun h => absurd ‹_› h⟩
  · split
    · exact ⟨Nat.le_succ_of_le hweight, fun _ => hweight⟩
    · exact ⟨by decide, fun _ => Nat.le_refl 2⟩

theorem cost_of_plain {c : Char} (hescape : c ≠ '\\') (hplain : escapeChar c = [c]) :
  cost c = weight c
  := by
  rw [cost, if_neg hescape, if_pos hplain]

/-- A character other than quotes, backslashes and control characters is written as it is. -/
theorem escapeChar_plain {c : Char} (hquote : c ≠ '"') (hescape : c ≠ '\\')
    (hcontrol : ¬c.toNat < 0x20) :
  escapeChar c = [c]
  := by
  have hne : ∀ d : Char, d.toNat < 0x20 → c ≠ d := by
    rintro d hd rfl
    exact hcontrol hd
  rw [escapeChar, if_neg hquote, if_neg hescape, if_neg (hne _ (by decide)),
    if_neg (hne _ (by decide)), if_neg (hne _ (by decide)), if_neg (hne _ (by decide)),
    if_neg (hne _ (by decide)), if_neg hcontrol]

/-- A character after a backslash weighs, together with it, what the character it stands for
costs. -/
theorem cost_of_escaped? {c d : Char} (h : escaped? c = some d) :
  cost d ≤ 2 + weight c
  := by
  rw [escaped?.eq_def] at h
  split at h <;> first | (cases h; decide) | cases h

/-! ### Letters that are read -/

/-- A text holds letters in their order, each as it is or as an escape, whatever is between them. -/
inductive Holds : List Char → List Char → Prop where
  | nil : Holds [] []
  | skip (c : Char) {cs s : List Char} (h : Holds cs s) : Holds (c :: cs) s
  | plain {c : Char} {cs s : List Char} (hc : escapeChar c = [c]) (h : Holds cs s) :
      Holds (c :: cs) (c :: s)
  | escape {c d : Char} {cs s : List Char} (hd : escaped? c = some d) (h : Holds cs s) :
      Holds ('\\' :: c :: cs) (d :: s)
  | byNumber {a b c d : Char} {n : Nat} {cs s : List Char} (hn : hexValue4? a b c d = some n)
      (h : Holds cs s) : Holds ('\\' :: 'u' :: a :: b :: c :: d :: cs) (Char.ofNat n :: s)
  | byPair {a b c d a' b' c' d' e : Char} {n : Nat} {cs s : List Char}
      (hn : hexValue4? a b c d = some n)
      (he : (hexValue4? a' b' c' d').bind (surrogatePair? n) = some e) (h : Holds cs s) :
      Holds ('\\' :: 'u' :: a :: b :: c :: d :: '\\' :: 'u' :: a' :: b' :: c' :: d' :: cs) (e :: s)

theorem Holds.append (hs : Holds cs s) (ht : Holds ds t) :
  Holds (cs ++ ds) (s ++ t)
  := by
  induction hs with
  | nil => exact ht
  | skip c _ ih => exact .skip c ih
  | plain hc _ ih => exact .plain hc ih
  | escape hd _ ih => exact .escape hd ih
  | byNumber hn _ ih => exact .byNumber hn ih
  | byPair hn he _ ih => exact .byPair hn he ih

theorem Holds.skipped (cs : List Char) :
  Holds cs []
  := by
  induction cs with
  | nil => exact .nil
  | cons c cs ih => exact .skip c ih

/-- The letters that a text holds cost no more than the text weighs. -/
theorem Holds.cost_le (h : Holds cs s) :
  total cost s ≤ total weight cs
  := by
  have hbackslash : weight '\\' = 2 := rfl
  have hletter : weight 'u' = 1 := rfl
  induction h with
  | nil => exact Nat.le_refl 0
  | skip c _ ih => exact Nat.le_trans ih (Nat.le_add_left _ _)
  | plain hc _ ih =>
      have hplain := cost_of_plain (by rintro rfl; exact absurd hc (by decide)) hc
      rw [total_cons, total_cons, hplain]
      omega
  | escape hd _ ih =>
      have hcost := cost_of_escaped? hd
      simp only [total_cons]
      omega
  | @byNumber _ _ _ _ n _ _ _ _ ih =>
      have hcost := (Json.cost_le (Char.ofNat n)).1
      simp only [total_cons]
      omega
  | @byPair _ _ _ _ _ _ _ _ e _ _ _ _ _ _ ih =>
      have hcost := (Json.cost_le e).1
      simp only [total_cons]
      omega

/-- Letters cost no less than some of them. -/
theorem cost_of_subperm (h : s.Subperm t) :
  total cost s ≤ total cost t
  := by
  obtain ⟨u, hperm, hsub⟩ := h
  rw [total, total, ← (hperm.map cost).sum_nat]
  exact (hsub.map cost).sum_le_sum fun _ _ => Nat.zero_le _

/-- Letters are read off the start of a text that holds them. -/
def Reads (cs s rest : List Char) : Prop :=
  ∃ taken held, cs = taken ++ rest ∧ Holds taken held ∧ s.Subperm held

theorem Reads.refl (cs : List Char) :
  Reads cs [] cs
  := ⟨[], [], rfl, .nil, .refl []⟩

theorem Reads.skip (c : Char) (h : Reads cs s rest) :
  Reads (c :: cs) s rest
  := by
  obtain ⟨taken, held, rfl, hheld, hs⟩ := h
  exact ⟨c :: taken, held, rfl, .skip c hheld, hs⟩

theorem Reads.trans (hs : Reads cs s ds) (ht : Reads ds t rest) :
  Reads cs (s ++ t) rest
  := by
  obtain ⟨taken, held, rfl, hheld, hs⟩ := hs
  obtain ⟨taken', held', rfl, hheld', ht⟩ := ht
  exact ⟨taken ++ taken', held ++ held', (List.append_assoc ..).symm, hheld.append hheld',
    hs.append ht⟩

theorem Reads.subperm (h : Reads cs s rest) (ht : t.Subperm s) :
  Reads cs t rest
  := by
  obtain ⟨taken, held, htaken, hheld, hs⟩ := h
  exact ⟨taken, held, htaken, hheld, ht.trans hs⟩

theorem Reads.skipped (ds cs : List Char) :
  Reads (ds ++ cs) [] cs
  := ⟨ds, [], rfl, .skipped ds, .refl []⟩

theorem Reads.skipSpace (h : Reads (skipSpace cs) s rest) :
  Reads cs s rest
  := by
  have hsplit := List.takeWhile_append_dropWhile (l := cs)
    (p := fun c => c == ' ' || c == '\n' || c == '\t' || c == '\r')
  rw [← hsplit]
  exact (Reads.skipped _ _).trans h

theorem Reads.word (word cs : List Char) (h : ∀ c ∈ word, escapeChar c = [c]) :
  Reads (word ++ cs) word cs
  := by
  refine ⟨word, word, rfl, ?_, .refl word⟩
  induction word with
  | nil => exact .nil
  | cons c word ih =>
      obtain ⟨hc, hword⟩ := List.forall_mem_cons.mp h
      exact .plain hc (ih hword)

/-- No character of a number is a letter. -/
theorem Consumes.reads (h : Consumes cs tail) :
  Reads cs [] tail
  := by
  obtain ⟨taken, rfl, _⟩ := h
  exact .skipped taken tail

/-- The letters of a string are read off its text. -/
theorem reads_of_readString? {seen : List Char} {str : String}
    (h : readString? seen cs = some (str, rest)) :
  ∃ s, str.toList = seen.reverse ++ s ∧ Reads cs s rest
  := by
  have hfirst : ∀ {c : Char} {seen s : List Char}, str.toList = (c :: seen).reverse ++ s →
      str.toList = seen.reverse ++ c :: s := by
    intro c seen s hs
    rw [hs, List.reverse_cons, List.append_assoc, List.singleton_append]
  fun_induction readString? seen cs with
  | case1 seen rest =>
      cases h
      exact ⟨[], by rw [String.toList_ofList, List.append_nil], .skip '"' (.refl rest)⟩
  | case2 | case5 | case6 | case8 | case10 | case11 | case13 => cases h
  | case3 seen a b c d a' b' c' d' rest n hn pair hpair ih =>
      obtain ⟨s, hs, taken, held, rfl, hheld, hsub⟩ := ih h
      exact ⟨_, hfirst hs, _, _, rfl, .byPair hn hpair hheld, (List.subperm_cons pair).mpr hsub⟩
  | case4 seen a b c d a' b' c' d' rest n hn _ hvalid ih =>
      obtain ⟨s, hs, taken, held, htaken, hheld, hsub⟩ := ih h
      refine ⟨_, hfirst hs, '\\' :: 'u' :: a :: b :: c :: d :: taken, _, ?_, .byNumber hn hheld,
        (List.subperm_cons _).mpr hsub⟩
      rw [htaken]
      rfl
  | case7 seen a b c d rest _ n hn hvalid ih =>
      obtain ⟨s, hs, taken, held, rfl, hheld, hsub⟩ := ih h
      exact ⟨_, hfirst hs, _, _, rfl, .byNumber hn hheld, (List.subperm_cons _).mpr hsub⟩
  | case9 seen c rest _ _ d hd ih =>
      obtain ⟨s, hs, taken, held, rfl, hheld, hsub⟩ := ih h
      exact ⟨_, hfirst hs, _, _, rfl, .escape hd hheld, (List.subperm_cons d).mpr hsub⟩
  | case12 seen c rest hquote _ _ hescape hcontrol ih =>
      have hbackslash : c ≠ '\\' := by
        intro hc
        cases rest with
        | nil => cases h
        | cons d rest => exact hescape d rest hc rfl
      have hplain := escapeChar_plain hquote hbackslash hcontrol
      obtain ⟨s, hs, taken, held, rfl, hheld, hsub⟩ := ih h
      exact ⟨_, hfirst hs, _, _, rfl, .plain hplain hheld, (List.subperm_cons c).mpr hsub⟩

theorem reads_of_readString {str : String} (h : readString? [] cs = some (str, rest)) :
  Reads cs str.toList rest
  := by
  obtain ⟨s, hs, hreads⟩ := reads_of_readString? h
  rw [hs]
  exact hreads

/-- A member that is put among others adds its letters at most. -/
theorem letters_insertMember (key : String) (value : Json) (members : List (String × Json)) :
  (lettersOfMembers (insertMember key value members)).Subperm
    (key.toList ++ value.letters ++ lettersOfMembers members)
  := by
  induction members with
  | nil => exact .refl _
  | cons m members ih =>
      obtain ⟨k, v⟩ := m
      rw [insertMember]
      split
      · exact .refl _
      · split
        · exact ((List.sublist_append_right _ _).append_left _).subperm
        · rw [lettersOfMembers, lettersOfMembers]
          refine ((List.subperm_append_left _).mpr ih).trans (List.Perm.subperm ?_)
          exact List.perm_append_comm_assoc ..

theorem letters_ofMembers (members : List (String × Json)) :
  (ofMembers members).letters.Subperm (lettersOfMembers members)
  := by
  have hfold : ∀ sorted : List (String × Json),
      (lettersOfMembers (members.foldl (fun sorted m => insertMember m.1 m.2 sorted) sorted)).Subperm
        (lettersOfMembers members ++ lettersOfMembers sorted) := by
    induction members with
    | nil => exact fun sorted => .refl _
    | cons m members ih =>
        intro sorted
        refine (ih (insertMember m.1 m.2 sorted)).trans ?_
        have hput := (List.subperm_append_left (lettersOfMembers members)).mpr
          (letters_insertMember m.1 m.2 sorted)
        refine hput.trans (List.Perm.subperm ?_)
        rw [lettersOfMembers, ← List.append_assoc]
        exact List.perm_append_comm.append_right _
  have h := hfold []
  rwa [lettersOfMembers, List.append_nil] at h

/-- What is read with `fuel` has its letters from the text that it is read off. -/
structure ReadsWithin (fuel : Nat) : Prop where
  value : ∀ {cs j rest}, readValue? fuel cs = some (j, rest) → Reads cs j.letters rest
  items : ∀ {cs items rest}, readItems? fuel cs = some (items, rest) →
    Reads cs (lettersOfItems items) rest
  members : ∀ {cs members rest}, readMembers? fuel cs = some (members, rest) →
    Reads cs (lettersOfMembers members) rest

variable {fuel : Nat}

theorem reads_value (h : ReadsWithin fuel) (hj : readValue? (fuel + 1) cs = some (j, rest)) :
  Reads cs j.letters rest
  := by
  apply Reads.skipSpace
  rw [readValue?] at hj
  split at hj
  case h_1 heq =>
      cases hj
      rw [heq, letters]
      exact .word "null".toList _ (by simp [escapeChar])
  case h_2 heq =>
      cases hj
      rw [heq, letters]
      exact .word "true".toList _ (by simp [escapeChar])
  case h_3 heq =>
      cases hj
      rw [heq, letters]
      exact .word "false".toList _ (by simp [escapeChar])
  case h_4 heq =>
      obtain ⟨⟨str, r⟩, hstr, hj⟩ := Option.map_eq_some_iff.mp hj
      cases hj
      rw [heq, letters]
      exact .skip '"' (reads_of_readString hstr)
  case h_5 after heq =>
      rw [heq]
      refine .skip '[' (.skipSpace ?_)
      split at hj
      case h_1 heq =>
          cases hj
          rw [heq]
          exact .skip ']' (.refl _)
      case h_2 =>
          obtain ⟨⟨items, r⟩, hitems, hj⟩ := Option.map_eq_some_iff.mp hj
          cases hj
          rw [letters]
          exact h.items hitems
  case h_6 after heq =>
      rw [heq]
      refine .skip _ (.skipSpace ?_)
      split at hj
      case h_1 heq =>
          cases hj
          rw [heq]
          exact .skip _ (.refl _)
      case h_2 =>
          obtain ⟨⟨members, r⟩, hmembers, hj⟩ := Option.map_eq_some_iff.mp hj
          cases hj
          exact (h.members hmembers).subperm (letters_ofMembers members)
  case h_7 heq =>
      obtain ⟨⟨n, r⟩, hn, hj⟩ := Option.map_eq_some_iff.mp hj
      cases hj
      rw [heq, letters]
      exact .skip '-' (readNumber?_local hn).1.reads
  case h_8 =>
      obtain ⟨⟨n, r⟩, hn, hj⟩ := Option.map_eq_some_iff.mp hj
      cases hj
      rw [letters]
      exact (readNumber?_local hn).1.reads

theorem reads_items (h : ReadsWithin fuel) {items : List Json}
    (hitems : readItems? (fuel + 1) cs = some (items, rest)) :
  Reads cs (lettersOfItems items) rest
  := by
  rw [readItems?] at hitems
  obtain ⟨⟨item, after⟩, hitem, hitems⟩ := Option.bind_eq_some_iff.mp hitems
  have hfirst := h.value hitem
  dsimp only at hitems
  split at hitems
  case h_1 next heq =>
      obtain ⟨⟨more, r⟩, hmore, hitems⟩ := Option.bind_eq_some_iff.mp hitems
      cases hitems
      refine hfirst.trans (.skipSpace ?_)
      rw [heq]
      exact .skip ',' (h.items hmore)
  case h_2 next heq =>
      cases hitems
      refine hfirst.trans (.skipSpace ?_)
      rw [heq]
      exact .skip ']' (.refl _)
  case h_3 => cases hitems

theorem reads_members (h : ReadsWithin fuel) {members : List (String × Json)}
    (hmembers : readMembers? (fuel + 1) cs = some (members, rest)) :
  Reads cs (lettersOfMembers members) rest
  := by
  apply Reads.skipSpace
  rw [readMembers?] at hmembers
  split at hmembers
  case h_1 opened heq =>
      obtain ⟨⟨key, named⟩, hkey, hmembers⟩ := Option.bind_eq_some_iff.mp hmembers
      rw [heq]
      refine .skip '"' ?_
      dsimp only at hmembers
      split at hmembers
      case h_1 begun hcolon =>
          obtain ⟨⟨value, after⟩, hvalue, hmembers⟩ := Option.bind_eq_some_iff.mp hmembers
          have hmember : Reads opened (key.toList ++ value.letters) after := by
            refine (reads_of_readString hkey).trans (.skipSpace ?_)
            rw [hcolon]
            exact .skip ':' (h.value hvalue)
          dsimp only at hmembers
          split at hmembers
          case h_1 next hnext =>
              obtain ⟨⟨more, r⟩, hmore, hmembers⟩ := Option.bind_eq_some_iff.mp hmembers
              cases hmembers
              refine hmember.trans (.skipSpace ?_)
              rw [hnext]
              exact .skip ',' (h.members hmore)
          case h_2 next hnext =>
              cases hmembers
              refine hmember.trans (.skipSpace ?_)
              rw [hnext]
              exact .skip _ (.refl _)
          case h_3 => cases hmembers
      case h_2 => cases hmembers
  case h_2 => cases hmembers

theorem readsWithin (fuel : Nat) :
  ReadsWithin fuel
  := by
  induction fuel with
  | zero => constructor <;> exact fun h => nomatch h
  | succ fuel ih => exact ⟨reads_value ih, reads_items ih, reads_members ih⟩

/-! ### Libraries -/

/-- A library that writes and reads documents. -/
structure Library where
  write : Json → String
  read? : String → Option Json

/-- What a library is known for that writes the documents among `Valid` in JSON and reads JSON: a
document is spelled with its letters, each as in a JSON string, and is read back; and what is read
has its letters from the text. -/
structure Library.Documented (L : Library) (Valid : Json → Prop) : Prop where
  spelt : ∀ j, Valid j → Spelt (L.write j).toList j.letters
  readsBack : ∀ j, Valid j → L.read? (L.write j) = some j
  holds : ∀ text j, L.read? text = some j → ∃ s, Holds text.toList s ∧ j.letters.Subperm s

/-- The writer and the reader of this library. -/
def Library.standard : Library :=
  ⟨pretty, parse?⟩

theorem Library.documented_standard :
  Library.standard.Documented Sound
  where
  spelt _ hj := hj.spelt 0
  readsBack _ hj := parse?_pretty hj
  holds text j h := by
    have hparse : parse? text = some j := h
    rw [parse?] at hparse
    split at hparse
    case h_1 heq =>
        split at hparse
        · cases hparse
          obtain ⟨taken, held, htaken, hheld, hsub⟩ := (readsWithin _).value heq
          refine ⟨held ++ [], ?_, (List.append_nil held).symm ▸ hsub⟩
          rw [htaken]
          exact hheld.append (.skipped _)
        · cases hparse
    case h_2 => cases hparse

/-! ### Literals -/

section Literals

variable {e : Escapes} {value : List Char}

/-- A text without apostrophes is read from between quotes as what it stands for. -/
theorem readContent_plainText (h : '\'' ∉ cs) :
  e.readContent (cs ++ '\'' :: rest) = some (value, rest) ↔ e.unescape cs = some value
  := by
  have htext : Render.escapeString cs = cs := by
    induction cs with
    | nil => rfl
    | cons c cs ih =>
        rw [Escapes.escapeString_cons (List.ne_of_not_mem_cons h).symm,
          ih (List.not_mem_of_not_mem_cons h)]
  rw [← Escapes.readContent_escapeString, htext]

/-- A text ends at its first apostrophe, if no backslash takes it. -/
theorem length_of_apostrophe (hescape : EachEscape (fun c => c ≠ '\'') cs) (hquote : '\'' ∈ cs)
    {after : List Char} (h : e.readContent (cs ++ '\'' :: rest) = some (value, after)) :
  rest.length < after.length
  := by
  fun_induction e.unescape cs generalizing value with
  | case1 => exact absurd hquote List.not_mem_nil
  | case2 => exact hescape.elim
  | case3 cs => exact absurd rfl hescape.1
  | case4 c cs hplain ih =>
      rw [List.cons_append, List.cons_append, Escapes.readContent] at h
      obtain ⟨v, hv, _⟩ := Escapes.map_value_eq_some.mp h
      refine ih hescape.2 ?_ hv
      simpa [Ne.symm hplain] using hquote
  | case5 c cs hlast hnext ih =>
      by_cases hc : c = '\''
      · rw [hc, List.cons_append, Escapes.readContent] at h
        cases h
        rw [List.length_append, List.length_cons]
        omega
      · have hbackslash : c ≠ '\\' := by
          cases cs with
          | nil => exact fun hc => hlast hc rfl
          | cons d ds => exact fun hc => hnext d ds hc rfl
        rw [List.cons_append, Escapes.readContent_plain hc hbackslash] at h
        obtain ⟨v, hv, _⟩ := Escapes.map_value_eq_some.mp h
        rw [eachEscape_cons hbackslash] at hescape
        exact ih hescape (List.mem_of_ne_of_mem (Ne.symm hc) hquote) hv

/-- A document ends where its literal does just when it has no apostrophe. -/
theorem Spelt.endsLiteral (h : Spelt cs s) (rest : List Char) :
  (∃ value, e.readContent (cs ++ '\'' :: rest) = some (value, rest)) ↔ '\'' ∉ s
  := by
  rw [← h.quote_mem]
  constructor
  · rintro ⟨value, hvalue⟩ hquote
    exact Nat.lt_irrefl _ (length_of_apostrophe h.eachEscape hquote hvalue)
  · intro hquote
    simp only [readContent_plainText hquote]
    exact Option.isSome_iff_exists.mp (Escapes.unescape_isSome.mpr h.eachEscape)

/-- A document with letters that are written as they are stands for itself. -/
theorem Spelt.unescape_eq_self (h : Spelt cs s) (hplain : ∀ c ∈ s, escapeChar c = [c]) :
  e.unescape cs = some cs
  := by
  induction h with
  | nil => rfl
  | mark hc _ ih => rw [unescape_cons hc.2.1, ih hplain, Option.map_some]
  | letter c _ ih =>
      obtain ⟨hc, hs⟩ := List.forall_mem_cons.mp hplain
      have hbackslash : c ≠ '\\' := by
        rintro rfl
        exact absurd hc (by decide)
      rw [hc, List.singleton_append, unescape_cons hbackslash, ih hs, Option.map_some]

/-- A document that is written between quotes as it is comes back just when none of its letters is
an apostrophe or has an escape. -/
theorem Library.Documented.literal_readsBack {L : Library} {Valid : Json → Prop}
    (hL : L.Documented Valid) (he : TakesEscapes e) (hj : Valid j) (rest : List Char) :
  (∃ value, e.readContent ((L.write j).toList ++ '\'' :: rest) = some (value, rest)
      ∧ L.read? (String.ofList value) = some j)
    ↔ ∀ c ∈ j.letters, c ≠ '\'' ∧ escapeChar c = [c]
  := by
  have hspelt := hL.spelt j hj
  constructor
  · rintro ⟨value, hread, hparse⟩
    have hquote := (hspelt.endsLiteral rest).mp ⟨value, hread⟩
    rw [readContent_plainText (mt hspelt.quote_mem.mp hquote)] at hread
    have hweight := hspelt.weight_of_unescape he hread
    obtain ⟨held, hheld, hsub⟩ := hL.holds _ j hparse
    rw [String.toList_ofList] at hheld
    have hcost := Nat.le_trans (cost_of_subperm hsub) hheld.cost_le
    have hnone : j.letters.countP isEscaped = 0 := by omega
    intro c hc
    refine ⟨fun h => hquote (h ▸ hc), ?_⟩
    have hplain := List.countP_eq_zero.mp hnone c hc
    rwa [isEscaped, bne_iff_ne, not_not] at hplain
  · intro h
    have hquote : '\'' ∉ j.letters := fun hc => (h _ hc).1 rfl
    refine ⟨(L.write j).toList, ?_, ?_⟩
    · rw [readContent_plainText (mt hspelt.quote_mem.mp hquote)]
      exact hspelt.unescape_eq_self fun c hc => (h c hc).2
    · rw [String.ofList_toList, hL.readsBack j hj]

end Literals

end RelSql.Json

namespace RelSql.Definition

open Json Render Sql Text

/-- The schema of a table over Avro files is written between quotes as it is, whatever documented
library writes it: its literal ends where it should just when the schema has no apostrophe, and the
schema is read from it just when, besides, none of its strings has a character that JSON escapes. -/
theorem AvroTable.create_schema {L : Json.Library} {Valid : Json → Prop} (hL : L.Documented Valid)
    (e : Escapes) (he : TakesEscapes e) (t : AvroTable) (ht : Valid t.schema) :
  t.createWith L.write = ofLines [createLine true t.ifNotExists t.target, storedLine .avro,
      locationLine t.path, "TBLPROPERTIES ('avro.schema.literal'="]
        ++ plainLiteral (L.write t.schema) ++ ")"
    ∧ ((∃ value, e.readLiteral ((plainLiteral (L.write t.schema)).toList ++ [')'])
        = some (value, [')']))
      ↔ '\'' ∉ t.schema.letters)
    ∧ ((∃ value, e.readLiteral ((plainLiteral (L.write t.schema)).toList ++ [')'])
        = some (value, [')']) ∧ L.read? (String.ofList value) = some t.schema)
      ↔ ∀ c ∈ t.schema.letters, c ≠ '\'' ∧ Json.escapeChar c = [c])
  := by
  have hread : e.readLiteral ((plainLiteral (L.write t.schema)).toList ++ [')'])
      = e.readContent ((L.write t.schema).toList ++ '\'' :: [')']) := by
    rw [plainLiteral, String.toList_append, String.toList_append, List.append_assoc]
    rfl
  rw [hread]
  refine ⟨?_, (hL.spelt _ ht).endsLiteral [')'], hL.literal_readsBack he ht [')']⟩
  simp only [AvroTable.createWith, ofLines, joinWith, String.append_assoc]

theorem AvroTable.create_schema_apostrophe :
  TakesEscapes .plain ∧ Sound (.object [("doc", .string "it's")])
    ∧ ¬∃ value, Escapes.plain.readLiteral
      ((plainLiteral (Json.object [("doc", .string "it's")]).pretty).toList ++ [')'])
        = some (value, [')'])
  := by
  have hplain : TakesEscapes .plain := ⟨rfl, List.all_iff_forall_prop.mp rfl⟩
  have hsound : Sound (.object [("doc", .string "it's")]) :=
    .object (List.pairwise_singleton _ _) (List.forall_mem_singleton.mpr (.string "it's"))
  obtain ⟨_, hends, _⟩ := create_schema Json.Library.documented_standard .plain hplain
    ⟨⟨"t", none⟩, "/p", .object [("doc", .string "it's")], false⟩ hsound
  exact ⟨hplain, hsound, mt hends.mp (by decide)⟩

end RelSql.Definition
