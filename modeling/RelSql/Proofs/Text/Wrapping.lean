import RelSql.Proofs.Lexical.Indentation
import RelSql.Render.Query

/-!
# Wrapped select lists

A select list is its items in order, each behind a separator: a comma, unless the item is the
first one, and then a space, a newline, or a newline and seven spaces.  Items of several lines are
indented.  A line that holds parts of several items is at most 16 bytes wider than the greatest
width, the comma at its end aside.
-/

/-! ## Lines -/

namespace RelSql.Text

/-- The lines of a text are what stands between its newlines. -/
theorem lines_eq_splitOn (cs : List Char) :
  lines cs = cs.splitOn '\n'
  := by
  induction cs with
  | nil => rfl
  | cons c cs ih =>
      rw [lines, List.splitOn_cons_eq_if_modifyHead, ih]
      by_cases hc : c = '\n'
      · rw [if_pos hc, if_pos (beq_iff_eq.mpr hc)]
      · rw [if_neg hc, if_neg (by simpa using hc)]
        cases hlines : cs.splitOn '\n' with
        | nil => exact absurd hlines (List.splitOn_ne_nil _ _)
        | cons l ls => rfl

theorem lines_ne_nil (cs : List Char) :
  lines cs ≠ []
  := by
  rw [lines_eq_splitOn]
  exact List.splitOn_ne_nil _ _

theorem lines_newline (cs : List Char) :
  lines ('\n' :: cs) = [] :: lines cs
  := if_pos rfl

/-- A character within a line stands in front of the first line behind it. -/
theorem lines_cons {c : Char} (hc : c ≠ '\n') {cs l : List Char} {ls : List (List Char)}
    (h : lines cs = l :: ls) :
  lines (c :: cs) = (c :: l) :: ls
  := by
  rw [lines, if_neg hc, h]

/-- A text without newlines is one line. -/
theorem lines_of_not_mem {cs : List Char} (h : '\n' ∉ cs) :
  lines cs = [cs]
  := by
  rw [lines_eq_splitOn, List.splitOn_eq_singleton h]

/-- The number of lines is that of newlines and one. -/
theorem length_lines (cs : List Char) :
  (lines cs).length = cs.count '\n' + 1
  := by
  induction cs with
  | nil => rfl
  | cons c cs ih =>
      by_cases hc : c = '\n'
      · rw [hc, lines_newline, List.length_cons, ih, List.count_cons_self]
      · obtain ⟨l, ls, hl⟩ := List.exists_cons_of_ne_nil (lines_ne_nil cs)
        rw [lines_cons hc hl, List.count_cons_of_ne hc, ← ih, hl, List.length_cons, List.length_cons]

/-- Where texts are put together, the last line of one goes on with the first line of the other. -/
theorem lines_append {cs ds l f : List Char} {above below : List (List Char)}
    (hl : lines cs = above ++ [l]) (hf : lines ds = f :: below) :
  lines (cs ++ ds) = above ++ (l ++ f) :: below
  := by
  induction cs generalizing above l with
  | nil =>
      have hnil : [] ++ [[]] = above ++ [l] := hl
      obtain ⟨rfl, hl⟩ := List.append_inj' hnil rfl
      obtain rfl := List.singleton_inj.mp hl
      exact hf
  | cons c cs ih =>
      obtain ⟨start, rest, hcs⟩ := List.exists_cons_of_ne_nil (lines_ne_nil cs)
      by_cases hc : c = '\n'
      · rw [hc, lines_newline, hcs] at hl
        cases above with
        | nil => cases hl
        | cons a above =>
            obtain ⟨rfl, hrest⟩ := List.cons.inj hl
            rw [hc, List.cons_append, lines_newline, ih (hcs.trans hrest)]
            rfl
      · rw [lines_cons hc hcs] at hl
        cases above with
        | nil =>
            obtain ⟨rfl, rfl⟩ := List.cons.inj hl
            have hcs : lines cs = [] ++ [start] := hcs
            exact lines_cons hc (ih hcs)
        | cons a above =>
            obtain ⟨rfl, rfl⟩ := List.cons.inj hl
            have hcs : lines cs = (start :: above) ++ [l] := hcs
            exact lines_cons hc (ih hcs)

/-- A text of one line stands in front of the first line behind it. -/
theorem lines_append_of_not_mem {cs ds f : List Char} {below : List (List Char)} (h : '\n' ∉ cs)
    (hf : lines ds = f :: below) :
  lines (cs ++ ds) = (cs ++ f) :: below
  := by
  have hcs : lines cs = [] ++ [cs] := lines_of_not_mem h
  exact lines_append hcs hf

/-- Padding moves the lines of a text, the first one excepted. -/
theorem exists_lines_padBreaks {pad : List Char} (hpad : '\n' ∉ pad) (cs : List Char) :
  ∃ f below, lines cs = f :: below ∧ lines (padBreaks pad cs) = f :: below.map (pad ++ ·)
  := by
  induction cs with
  | nil => exact ⟨[], [], rfl, rfl⟩
  | cons c cs ih =>
      obtain ⟨f, below, hcs, hpadded⟩ := ih
      rw [Sql.padBreaks_cons]
      by_cases hc : c = '\n'
      · have hmoved := lines_append_of_not_mem hpad hpadded
        refine ⟨[], f :: below, ?_, ?_⟩
        · rw [hc, lines_newline, hcs]
        · rw [if_pos hc, hc, List.cons_append, lines_newline, hmoved]
          rfl
      · refine ⟨c :: f, below, lines_cons hc hcs, ?_⟩
        rw [if_neg hc]
        exact lines_cons hc hpadded

/-- An indented text has the lines of the given one, each behind as many spaces. -/
theorem lines_indent (n : Nat) (s : String) :
  lines (indent n s).toList = (lines s.toList).map (List.replicate n ' ' ++ ·)
  := by
  have hpad : '\n' ∉ List.replicate n ' ' := by
    intro h
    exact absurd (List.eq_of_mem_replicate h) (by decide)
  obtain ⟨f, below, hlines, hpadded⟩ := exists_lines_padBreaks hpad s.toList
  rw [indent, String.toList_ofList, hlines, lines_append_of_not_mem hpad hpadded]
  rfl

/-- The width of characters, in bytes. -/
def bytes (cs : List Char) : Nat :=
  width (String.ofList cs)

theorem bytes_append (cs ds : List Char) :
  bytes (cs ++ ds) = bytes cs + bytes ds
  := by
  rw [bytes, String.ofList_append, width, String.utf8ByteSize_append]
  rfl

theorem bytes_pos {cs : List Char} (h : cs ≠ []) :
  0 < bytes cs
  := by
  rw [Nat.pos_iff_ne_zero, bytes, width, ne_eq, String.utf8ByteSize_eq_zero_iff,
    String.ofList_eq_empty_iff]
  exact h

theorem width_eq_bytes (s : String) :
  width s = bytes s.toList
  := by
  rw [bytes, String.ofList_toList]

/-- A text ends with a line. -/
def EndsIn (cs l : List Char) : Prop :=
  ∃ above, lines cs = above ++ [l]

/-- A last line goes on with a text of one line. -/
theorem EndsIn.goOn {cs ds l : List Char} (h : EndsIn cs l) (hds : '\n' ∉ ds) :
  EndsIn (cs ++ ds) (l ++ ds)
  := by
  obtain ⟨above, h⟩ := h
  exact ⟨above, lines_append h (lines_of_not_mem hds)⟩

/-- Behind a newline another line starts. -/
theorem EndsIn.below (cs : List Char) {ds l : List Char} (h : EndsIn ds l) :
  EndsIn (cs ++ '\n' :: ds) l
  := by
  obtain ⟨above, h⟩ := h
  refine ⟨lines cs ++ above, ?_⟩
  rw [lines_eq_splitOn, List.splitOn_append_cons_self, ← lines_eq_splitOn, ← lines_eq_splitOn, h,
    List.append_assoc]

theorem endsIn_line {cs : List Char} (h : '\n' ∉ cs) :
  EndsIn cs cs
  := ⟨[], lines_of_not_mem h⟩

theorem exists_endsIn (cs : List Char) :
  ∃ l, EndsIn cs l
  := ⟨_, _, (List.dropLast_append_getLast (lines_ne_nil cs)).symm⟩

/-- A text whose last character is no newline ends in a line that is not empty. -/
theorem exists_endsIn_ne_nil {cs : List Char} (hne : cs ≠ []) (hend : cs.getLast? ≠ some '\n') :
  ∃ l, EndsIn cs l ∧ l ≠ []
  := by
  obtain ⟨front, c, rfl⟩ := (List.eq_nil_or_concat cs).resolve_left hne
  rw [List.concat_eq_append] at hend ⊢
  rw [List.getLast?_concat] at hend
  obtain ⟨l, hl⟩ := exists_endsIn front
  have hc : '\n' ∉ [c] := by
    rw [List.mem_singleton]
    rintro rfl
    exact hend rfl
  exact ⟨l ++ [c], hl.goOn hc, List.append_ne_nil_of_right_ne_nil l (List.cons_ne_nil c [])⟩

/-- An indented text ends in the indented last line. -/
theorem EndsIn.indent {s : String} {l : List Char} (h : EndsIn s.toList l) (n : Nat) :
  EndsIn (indent n s).toList (List.replicate n ' ' ++ l)
  := by
  obtain ⟨above, h⟩ := h
  refine ⟨above.map (List.replicate n ' ' ++ ·), ?_⟩
  rw [lines_indent, h, List.map_append, List.map_singleton]

theorem EndsIn.lastLineWidth_eq {s : String} {l : List Char} (h : EndsIn s.toList l) :
  lastLineWidth s = bytes l
  := by
  obtain ⟨above, h⟩ := h
  rw [lastLineWidth, h, List.getLast?_concat]
  rfl

end RelSql.Text

/-! ## Select lists -/

namespace RelSql.Render

open Text

/-- The text of entries, one after the other. -/
def Entry.texts : List Entry → String
  | [] => ""
  | e :: es => e.gap ++ e.body ++ texts es

theorem Entry.texts_append (es es' : List Entry) :
  texts (es ++ es') = texts es ++ texts es'
  := by
  induction es with
  | nil => exact (String.empty_append).symm
  | cons e es ih => simp only [List.cons_append, texts, ih, String.append_assoc]

/-- What an item may stand as: an item of several lines on lines of its own, each indented, and an
item of one line behind a space or, unless it is the first one, behind a newline and seven
spaces.  A comma is in front of all this unless the item is the first one. -/
inductive StandsAs (options : Options) (first : Bool) (item : String) : Entry → Prop where
  | block (h : isMultiline item = true)
      (hlines : lines (indent options.indent item).toList
        = (lines item.toList).map (List.replicate options.indent ' ' ++ ·)) :
    StandsAs options first item ⟨comma first ++ "\n", indent options.indent item⟩
  | behind (h : isMultiline item = false) : StandsAs options first item ⟨comma first ++ " ", item⟩
  | below (h : isMultiline item = false) (hfirst : first = false) :
    StandsAs options first item ⟨",\n       ", item⟩

/-- The number of lines above the one that a text ends in. -/
def linesAbove (s : String) : Nat :=
  s.toList.count '\n'

/-- A line holds a part of an entry when it is none above the line in which the item starts, and
none below the line in which it ends. -/
def HoldsPart (head : String) (es : List Entry) (n k : Nat) : Prop :=
  ∃ e, es[k]? = some e ∧ linesAbove (head ++ Entry.texts (es.take k) ++ e.gap) ≤ n
    ∧ n ≤ linesAbove (head ++ Entry.texts (es.take (k + 1)))

/-! ### Placing an item -/

variable {options : Options} {first : Bool} {line line' : Line} {item : String} {e : Entry}

/-- A first item is not wrapped. -/
theorem Places.standsAs (h : Places options first line item e line')
    (hfirst : first = true → line.items = 0) :
  StandsAs options first item e
  := by
  cases h with
  | block h => exact .block h (lines_indent _ _)
  | joined h hfits => exact .behind h
  | wrapped h hitems =>
      cases first with
      | true => exact absurd (hfirst rfl) (Nat.ne_of_gt hitems)
      | false => exact .below h rfl

theorem isMultiline_eq_false_iff :
  isMultiline item = false ↔ '\n' ∉ item.toList
  := by
  rw [isMultiline, Bool.eq_false_iff, ne_eq, List.contains_iff_mem]

/-- An item of one line is in one line with the comma and the space in front of it. -/
theorem not_mem_joined (first : Bool) (h : isMultiline item = false) :
  '\n' ∉ (comma first ++ " " ++ item).toList
  := by
  rw [String.toList_append, List.mem_append, not_or]
  exact ⟨by cases first <;> decide, isMultiline_eq_false_iff.mp h⟩

theorem bytes_joined (first : Bool) (item : String) :
  bytes (comma first ++ " " ++ item).toList = (if first then 1 else 2) + width item
  := by
  rw [String.toList_append, bytes_append, ← width_eq_bytes item]
  cases first <;> rfl

/-- What is known of a line that a placed item ends in: it has items and a width, and what is
written in it is at most 14 bytes wider than that. -/
structure Line.Measures (line : Line) (l : List Char) : Prop where
  items : 0 < line.items
  width : 0 < line.width
  bytes : bytes l ≤ line.width + 14

/-- A placed item ends in a line of which the width is known. -/
theorem Places.measures (h : Places options first line item e line') {cs l : List Char}
    (hl : EndsIn cs l) (hbytes : bytes l + (if first then 0 else 1) ≤ line.width + 15)
    (hend : item.toList.getLast? ≠ some '\n') :
  ∃ l', EndsIn (cs ++ (e.gap ++ e.body).toList) l' ∧ line'.Measures l'
  := by
  cases h with
  | block h =>
      have hitem : item.toList ≠ [] := by
        intro hnil
        rw [isMultiline, hnil] at h
        cases h
      obtain ⟨last, hlast, hne⟩ := exists_endsIn_ne_nil hitem hend
      have hindented := hlast.indent options.indent
      refine ⟨List.replicate options.indent ' ' ++ last, ?_, Nat.one_pos, ?_, ?_⟩
      · have hsplit : cs ++ (comma first ++ "\n" ++ indent options.indent item).toList
            = (cs ++ (comma first).toList) ++ '\n' :: (indent options.indent item).toList := by
          simp
        rw [hsplit]
        exact hindented.below _
      · rw [hindented.lastLineWidth_eq]
        exact bytes_pos (List.append_ne_nil_of_right_ne_nil _ hne)
      · rw [hindented.lastLineWidth_eq]
        exact Nat.le_add_right _ _
  | wrapped h hitems =>
      obtain ⟨front, pad, hgap, hpad, hwide⟩ : ∃ front pad,
          (if first then "\n" else ",\n       ").toList = front ++ '\n' :: pad ∧ '\n' ∉ pad
            ∧ bytes pad ≤ 7 := by
        cases first with
        | true => exact ⟨[], [], rfl, List.not_mem_nil, Nat.zero_le _⟩
        | false => exact ⟨[','], List.replicate 7 ' ', rfl, by decide, by decide⟩
      have hline : '\n' ∉ pad ++ item.toList := by
        rw [List.mem_append, not_or]
        exact ⟨hpad, isMultiline_eq_false_iff.mp h⟩
      refine ⟨pad ++ item.toList, ?_, Nat.one_pos, Nat.succ_pos _, ?_⟩
      · rw [String.toList_append, hgap, List.append_assoc, List.cons_append, ← List.append_assoc]
        exact (endsIn_line hline).below _
      · rw [bytes_append, ← width_eq_bytes]
        dsimp only
        omega
  | joined h hfits =>
      refine ⟨l ++ (comma first ++ " " ++ item).toList, hl.goOn (not_mem_joined first h),
        Nat.succ_pos _, Nat.succ_pos _, ?_⟩
      rw [bytes_append, bytes_joined]
      dsimp only
      cases first with
      | true =>
          rw [if_pos rfl] at hbytes ⊢
          omega
      | false =>
          rw [if_neg Bool.false_ne_true] at hbytes ⊢
          omega

/-! ### Placing all items -/

/-- What it means to place items behind a line, one after the other. -/
inductive PlacesAll (options : Options) : Bool → Line → List String → List Entry → Prop where
  | nil (first : Bool) (line : Line) : PlacesAll options first line [] []
  | cons {first : Bool} {line line' : Line} {item : String} {items : List String} {e : Entry}
      {es : List Entry} (h : Places options first line item e line')
      (hrest : PlacesAll options false line' items es) :
    PlacesAll options first line (item :: items) (e :: es)

variable {items : List String} {es : List Entry}

/-- The text of items is that of entries as which they are placed. -/
theorem exists_placesAll (options : Options) (items : List String) :
    ∀ (first : Bool) (line : Line), ∃ es, PlacesAll options first line items es
      ∧ placeItems options first line items = Entry.texts es := by
  induction items with
  | nil => exact fun first line => ⟨[], .nil first line, rfl⟩
  | cons item items ih =>
      intro first line
      obtain ⟨e, line', hitem, hplaces⟩ := exists_places options first line item
      obtain ⟨es, hall, hrest⟩ := ih false line'
      refine ⟨e :: es, .cons hplaces hall, ?_⟩
      rw [placeItems_cons, hitem, hrest]
      rfl

/-- Every item stands as an entry, in their order. -/
theorem PlacesAll.standsAs (h : PlacesAll options first line items es)
    (hfirst : first = true → line.items = 0) :
  es.length = items.length
    ∧ ∀ k item e, items[k]? = some item → es[k]? = some e →
      StandsAs options (first && k == 0) item e
  := by
  induction h with
  | nil => exact ⟨rfl, nofun⟩
  | @cons first line line' item items e es h _ ih =>
      obtain ⟨hlength, hrest⟩ := ih nofun
      refine ⟨congrArg Nat.succ hlength, ?_⟩
      intro k item' e' hitem he
      cases k with
      | zero =>
          cases hitem
          cases he
          rw [BEq.rfl, Bool.and_true]
          exact h.standsAs hfirst
      | succ k => simpa using hrest k item' e' hitem he

/-- A line that goes on with a comma and a newline holds no more than the comma. -/
theorem lines_broken {e : Entry} {pad : List Char} (hgap : e.gap.toList = ',' :: '\n' :: pad)
    (es : List Entry) :
  ∃ below, below ≠ [] ∧ lines (Entry.texts (e :: es)).toList = [','] :: below
  := by
  refine ⟨lines (pad ++ e.body.toList ++ (Entry.texts es).toList), lines_ne_nil _, ?_⟩
  rw [Entry.texts, String.toList_append, String.toList_append, hgap]
  exact lines_cons (by decide) (lines_newline _)

/-- What is written in the line of items before: nothing if the next item is placed in another
line, and otherwise items up to the greatest width; and a comma if there is a further line. -/
theorem PlacesAll.exists_firstLine (h : PlacesAll options false line items es)
    (hitems : 0 < line.items) (hwidth : 0 < line.width) :
  ∃ content below, lines (Entry.texts es).toList
      = (content ++ if below = [] then [] else [',']) :: below
    ∧ (line.width + bytes content ≤ options.maxLineLength + 2
      ∨ content = [] ∧ ∀ e ∈ es.head?, '\n' ∈ e.gap.toList)
  := by
  induction items generalizing line es with
  | nil =>
      cases h
      exact ⟨[], [], rfl, .inr ⟨rfl, nofun⟩⟩
  | cons item items ih =>
      cases h with
      | @cons _ _ line' _ _ e es hplaces hrest =>
          have hbroken : ∀ pad, e.gap.toList = ',' :: '\n' :: pad →
              ∃ content below, lines (Entry.texts (e :: es)).toList
                  = (content ++ if below = [] then [] else [',']) :: below
                ∧ (line.width + bytes content ≤ options.maxLineLength + 2
                  ∨ content = [] ∧ ∀ e' ∈ (e :: es).head?, '\n' ∈ e'.gap.toList) := by
            intro pad hgap
            obtain ⟨below, hne, hlines⟩ := lines_broken hgap es
            refine ⟨[], below, by rw [hlines, if_neg hne]; rfl, .inr ⟨rfl, ?_⟩⟩
            intro e' he'
            obtain rfl := Option.some.inj he'
            rw [hgap]
            exact List.mem_cons_of_mem _ List.mem_cons_self
          cases hplaces with
          | block _ => exact hbroken [] (show (comma false ++ "\n").toList = [',', '\n'] by decide)
          | wrapped _ _ =>
              exact hbroken (List.replicate 7 ' ')
                (show ",\n       ".toList = ',' :: '\n' :: List.replicate 7 ' ' by decide)
          | joined hline hfits =>
              obtain ⟨content, below, hlines, hcontent⟩ :=
                ih hrest (Nat.succ_pos _) (Nat.succ_pos _)
              have hfits := hfits hitems hwidth
              refine ⟨(comma false ++ " " ++ item).toList ++ content, below, ?_, .inl ?_⟩
              · rw [List.append_assoc, Entry.texts, String.toList_append]
                exact lines_append_of_not_mem (not_mem_joined false hline) hlines
              · rw [bytes_append, bytes_joined, if_neg Bool.false_ne_true]
                rcases hcontent with hcontent | ⟨rfl, _⟩
                · dsimp only at hcontent
                  omega
                · have hnone : bytes [] = 0 := rfl
                  omega

/-- Behind the entries that end in a line other entries are placed, and the width of the line is
known. -/
theorem PlacesAll.split (h : PlacesAll options first line items es) {cs l : List Char}
    (hl : EndsIn cs l) (hbytes : bytes l + (if first then 0 else 1) ≤ line.width + 15)
    (hends : ∀ item ∈ items, item.toList.getLast? ≠ some '\n') {k : Nat} (hk : k < es.length) :
  ∃ line' items' l', PlacesAll options false line' items' (es.drop (k + 1))
    ∧ EndsIn (cs ++ (Entry.texts (es.take (k + 1))).toList) l' ∧ line'.Measures l'
  := by
  induction h generalizing cs l k with
  | nil => exact absurd hk (Nat.not_lt_zero _)
  | @cons first line line' item items e es h hrest ih =>
      rw [List.forall_mem_cons] at hends
      obtain ⟨l', hl', hmeasures⟩ := h.measures hl hbytes hends.1
      cases k with
      | zero =>
          refine ⟨line', items, l', hrest, ?_, hmeasures⟩
          rw [List.take_succ_cons, List.take_zero, Entry.texts, Entry.texts, String.append_empty]
          exact hl'
      | succ k =>
          have hbytes' : bytes l' + (if false then 0 else 1) ≤ line'.width + 15 := by
            have := hmeasures.bytes
            rw [if_neg Bool.false_ne_true]
            omega
          obtain ⟨line'', items', l'', hrest', hl'', hmeasures'⟩ :=
            ih hl' hbytes' hends.2 (Nat.lt_of_succ_lt_succ hk)
          refine ⟨line'', items', l'', hrest', ?_, hmeasures'⟩
          rw [List.take_succ_cons, Entry.texts, String.toList_append, ← List.append_assoc]
          exact hl''

/-! ### Wrapped lines -/

/-- Texts that go on have no fewer lines above the one they end in. -/
theorem linesAbove_append (s t : String) :
  linesAbove (s ++ t) = linesAbove s + linesAbove t
  := by
  rw [linesAbove, String.toList_append, List.count_append]
  rfl

/-- Where a line holds parts of two items, the first one ends in it, and the next one is not behind
a newline. -/
theorem HoldsPart.goesOn {head : String} {n i j : Nat} (hij : i < j) (hi : HoldsPart head es n i)
    (hj : HoldsPart head es n j) :
  linesAbove (head ++ Entry.texts (es.take (i + 1))) = n
    ∧ ∃ d ds, es.drop (i + 1) = d :: ds ∧ '\n' ∉ d.gap.toList
  := by
  obtain ⟨_, _, _, hend⟩ := hi
  obtain ⟨e, he, hstart, _⟩ := hj
  obtain ⟨k, rfl⟩ := Nat.exists_eq_add_of_le (show i + 1 ≤ j from hij)
  rw [← List.getElem?_drop] at he
  rw [List.take_add] at hstart
  simp only [Entry.texts_append, linesAbove_append] at hstart hend ⊢
  refine ⟨by omega, ?_⟩
  cases hdrop : es.drop (i + 1) with
  | nil =>
      rw [hdrop] at he
      cases he
  | cons d ds =>
      rw [hdrop] at he hstart
      have hgap : linesAbove d.gap = 0 := by
        cases k with
        | zero =>
            obtain rfl := Option.some.inj he
            omega
        | succ k =>
            rw [List.take_succ_cons, Entry.texts] at hstart
            simp only [linesAbove_append] at hstart
            omega
      exact ⟨d, ds, rfl, List.count_eq_zero.mp hgap⟩

/-- The line in which an item ends and others go on has at most 16 bytes more than the greatest
width, and a comma if it is not the last one. -/
theorem PlacesAll.exists_line (h : PlacesAll options first line items es) {head : String}
    {l : List Char} (hl : EndsIn head.toList l)
    (hbytes : bytes l + (if first then 0 else 1) ≤ line.width + 15)
    (hends : ∀ item ∈ items, item.toList.getLast? ≠ some '\n') {n i j : Nat} (hij : i < j)
    (hi : HoldsPart head es n i) (hj : HoldsPart head es n j) :
  ∃ content, (lines (head ++ Entry.texts es).toList)[n]?
      = some (content ++ if n + 1 = (lines (head ++ Entry.texts es).toList).length then [] else [','])
    ∧ bytes content ≤ options.maxLineLength + 16
  := by
  obtain ⟨hn, d, ds, hdrop, hgap⟩ := hi.goesOn hij hj
  have hlength : i < es.length := by
    obtain ⟨_, he, _⟩ := hi
    exact (List.getElem?_eq_some_iff.mp he).1
  obtain ⟨line', items', l', hrest, ⟨above, hl'⟩, hmeasures⟩ := h.split hl hbytes hends hlength
  obtain ⟨content, below, hlines, hcontent⟩ :=
    hrest.exists_firstLine hmeasures.items hmeasures.width
  have hwide : line'.width + bytes content ≤ options.maxLineLength + 2 := by
    apply hcontent.resolve_right
    rintro ⟨_, hbroken⟩
    rw [hdrop] at hbroken
    exact hgap (hbroken d rfl)
  have hwhole : lines (head ++ Entry.texts es).toList
      = above ++ (l' ++ (content ++ if below = [] then [] else [','])) :: below := by
    rw [← List.take_append_drop (i + 1) es, Entry.texts_append, ← String.append_assoc,
      String.toList_append]
    rw [← String.toList_append] at hl'
    exact lines_append hl' hlines
  have habove : above.length = n := by
    rw [← hn, linesAbove, String.toList_append]
    have := length_lines (head.toList ++ (Entry.texts (es.take (i + 1))).toList)
    rw [hl', List.length_append, List.length_singleton] at this
    exact Nat.succ.inj this
  refine ⟨l' ++ content, ?_, ?_⟩
  · have hlast : n + 1 = (above ++ (l' ++ (content ++ if below = [] then [] else [','])) ::
        below).length ↔ below = [] := by
      rw [List.length_append, List.length_cons, habove, ← List.length_eq_zero_iff]
      omega
    rw [hwhole]
    simp only [hlast, List.append_assoc]
    rw [← habove, List.getElem?_append_right (Nat.le_refl _), Nat.sub_self]
    rfl
  · have := hmeasures.bytes
    rw [bytes_append]
    omega

/-- The keyword in front of a select list. -/
def selectKeyword (distinct : Bool) : String :=
  if distinct then "SELECT DISTINCT" else "SELECT"

/-- A select list is its keyword and all its items in order, each as what it may stand as.  If no
item ends with a newline, every line that holds parts of several items is, without the comma in
front of a further line, at most 16 bytes wider than the greatest width. -/
theorem selectItems_wraps (options : Options) (items : List String) :
  ∃ es : List Entry, selectItems options items = Entry.texts es
    ∧ es.length = items.length
    ∧ (∀ k item e, items[k]? = some item → es[k]? = some e → StandsAs options (k == 0) item e)
    ∧ (∀ v : View, v.options = options → v.clauses.select.mapM v.item = .ok items →
      v.selectList = .ok (selectKeyword v.clauses.distinct ++ Entry.texts es))
    ∧ ((∀ item ∈ items, item.toList.getLast? ≠ some '\n') →
      ∀ distinct n i j, i < j → HoldsPart (selectKeyword distinct) es n i →
        HoldsPart (selectKeyword distinct) es n j →
          let text := lines (selectKeyword distinct ++ Entry.texts es).toList
          ∃ content, text[n]? = some (content ++ if n + 1 = text.length then [] else [','])
            ∧ width (String.ofList content) ≤ options.maxLineLength + 16)
  := by
  obtain ⟨es, hplaces, htext⟩ := exists_placesAll options items true ⟨0, 0⟩
  obtain ⟨hlength, hstands⟩ := hplaces.standsAs fun _ => rfl
  refine ⟨es, htext, hlength, ?_, ?_, ?_⟩
  · simpa only [Bool.true_and] using hstands
  · rintro v rfl hitems
    rw [View.selectList, hitems, ← htext]
    rfl
  · intro hends distinct n i j hij hi hj
    have hone : '\n' ∉ (selectKeyword distinct).toList := by
      cases distinct <;> decide
    have hwidth : bytes (selectKeyword distinct).toList + (if true then 0 else 1) ≤ 0 + 15 := by
      cases distinct <;> decide
    exact hplaces.exists_line (endsIn_line hone) hwidth hends hij hi hj

/-- A line of several items that is 16 bytes wider than the greatest width, and an item of three
lines. -/
example : selectKeyword true ++ selectItems ⟨2, 20⟩ ["aaaaaaaaaa", "bbbbbbbb", "(\nc\n)", "d"]
    = "SELECT DISTINCT aaaaaaaaaa, bbbbbbbb,\n  (\n  c\n  ), d" := by
  decide

end RelSql.Render
