import RelSql.Proofs.Lexical.Layout
import RelSql.Proofs.Lexical.Legible
import RelSql.Proofs.Statement.Selects

/-!
# Texts of blocks

The text of a block starts with `SELECT`.  Of the keywords that queries and clauses start with,
no other stands in front of its ORDER BY clause, outside of parentheses and quotes; so the end
of the block and its last clauses can be found in the text.
-/

namespace RelSql

open Text Sql

namespace Sql

/-- A text on lines of its own, indented. -/
theorem Spells.onLines {text : String} {ts : List Token} (h : Spells text ts) (n : Nat) :
  Spells ("\n" ++ Text.indent n text ++ "\n") (padAll (List.replicate n ' ') ts)
  := by
  have hlines := (Spells.append_of_ends (show Spells "\n" [] from rfl) (h.indent n) rfl).append_of_starts
    (show Spells "\n" [] from rfl) rfl
  rwa [List.nil_append, List.append_nil] at hlines

/-- A text that is read as tokens none of which a query or a clause starts with. -/
def Plain (text : String) : Prop :=
  ∃ ts, Spells text ts ∧ Inner ts

theorem Plain.parted {s t sep : String} (hs : Plain s) (ht : Plain t) (hsep : Plain sep)
    (hstarts : starts sep) (hends : ends sep) :
  Plain (s ++ sep ++ t)
  := by
  obtain ⟨ts, hts, hinner⟩ := hs
  obtain ⟨us, hus, hinner'⟩ := ht
  obtain ⟨ks, hks, hinner''⟩ := hsep
  exact ⟨ts ++ ks ++ us, hts.parted hus hks hstarts hends, (hinner.append hinner'').append hinner'⟩

theorem Plain.append_of_ends {s t : String} (hs : Plain s) (ht : Plain t) (h : ends s) :
  Plain (s ++ t)
  := by
  obtain ⟨ts, hts, hinner⟩ := hs
  obtain ⟨us, hus, hinner'⟩ := ht
  exact ⟨ts ++ us, hts.append_of_ends hus h, hinner.append hinner'⟩

theorem Plain.append_of_starts {s t : String} (hs : Plain s) (ht : Plain t) (h : starts t) :
  Plain (s ++ t)
  := by
  obtain ⟨ts, hts, hinner⟩ := hs
  obtain ⟨us, hus, hinner'⟩ := ht
  exact ⟨ts ++ us, hts.append_of_starts hus h, hinner.append hinner'⟩

theorem Plain.indent {s : String} (h : Plain s) (n : Nat) :
  Plain (indent n s)
  := by
  obtain ⟨ts, hts, hinner⟩ := h
  exact ⟨_, hts.indent n, hinner.pad _⟩

theorem Plain.joinWith {sep : String} (hsep : Plain sep) (hstarts : starts sep) (hends : ends sep)
    {texts : List String} (h : ∀ text ∈ texts, Plain text) :
  Plain (joinWith sep texts)
  := by
  induction texts with
  | nil => exact ⟨[], rfl, nofun⟩
  | cons text texts ih =>
      rw [List.forall_mem_cons] at h
      cases texts with
      | nil => exact h.1
      | cons next texts => exact h.1.parted (ih h.2) hsep hstarts hends

theorem Plain.of_spells {text : String} {ts : List Token} (h : Spells text ts)
    (hinner : ts.all Token.isInner) :
  Plain text
  := ⟨ts, h, List.all_eq_true.mp hinner⟩

/-- A text whose tokens are found by reading it. -/
theorem Plain.of_tokens {text : String} (h : (tokens? text).any fun ts => ts.all Token.isInner) :
  Plain text
  := by
  rw [Option.any_eq_true] at h
  obtain ⟨ts, hts, hinner⟩ := h
  exact .of_spells (tokens?_eq_some.mp hts) hinner

theorem plain_of_isNumeral {cs : List Char} (h : IsNumeral cs) :
  Plain (String.ofList cs)
  := by
  have hword := h.word
  rw [← String.toList_ofList (l := cs)] at hword
  refine .of_spells hword.spells ?_
  rw [String.toList_ofList, Token.ofWord, h.read?_eq_none]
  rfl

theorem plain_of_isAtom {text : String} (h : IsAtom text.toList) :
  Plain text
  := by
  refine .of_spells h.word.spells ?_
  rcases h.keyword with hnone | hnull
  · rw [Token.ofWord, hnone]
    rfl
  · rw [hnull]
    rfl

/-- The label of a table, with characters after it that stand for themselves. -/
theorem plain_label (n : Nat) {cs : List Char} (h : ∀ c ∈ cs, Role.of c = .other) :
  Plain (AliasScope.aliasText n ++ String.ofList cs)
  := by
  have htext : (AliasScope.aliasText n ++ String.ofList cs).toList = 't' :: (Number.digits n ++ cs) := by
    rw [String.toList_append, AliasScope.aliasText, String.toList_ofList, String.toList_ofList,
      List.cons_append]
  have hchars : ∀ c ∈ Number.digits n ++ cs, Role.of c = .other := by
    intro c hc
    rcases List.mem_append.mp hc with hc | hc
    · exact Role.of_digit (Number.digits_isDigit hc)
    · exact h c hc
  have hword : IsWord (AliasScope.aliasText n ++ String.ofList cs).toList := by
    refine ⟨.plain, ?_⟩
    rw [htext, Scan.run_cons, show Scan.initial.step 't' = ⟨.word .plain ['t'], [], []⟩ from rfl,
      Scan.run_plain hchars, List.singleton_append]
  obtain ⟨d, ds, hdigits, hd, _⟩ := Number.digits_cons n
  have hkeyword : Keyword.read? (AliasScope.aliasText n ++ String.ofList cs).toList = none := by
    refine Keyword.read?_eq_none (c := d) ?_
      (Number.digit_induction (P := fun c => (lowerChar c).isLower = false) (by decide) hd)
    rw [htext, hdigits]
    simp
  exact plain_of_isAtom ⟨hword, .inl hkeyword⟩

theorem plain_aliasText (n : Nat) :
  Plain (AliasScope.aliasText n)
  := by
  have h := plain_label n (show ∀ c ∈ [], Role.of c = .other from nofun)
  rwa [String.ofList_nil, String.append_empty] at h

end Sql

/-- Every result of processing a list is that of an element. -/
theorem exists_of_mem_mapM {ε β γ : Type} {f : β → Except ε γ} {xs : List β} :
    ∀ {ys : List γ}, xs.mapM f = .ok ys → ∀ y ∈ ys, ∃ x ∈ xs, f x = .ok y := by
  induction xs with
  | nil =>
      intro ys h
      cases h
      exact nofun
  | cons x xs ih =>
      intro ys h
      rw [List.mapM_cons] at h
      obtain ⟨y, hy, h⟩ := exists_of_bind_eq_ok h
      obtain ⟨ys, hys, h⟩ := exists_of_bind_eq_ok h
      cases h
      refine List.forall_mem_cons.mpr ⟨⟨x, List.mem_cons_self, hy⟩, fun z hz => ?_⟩
      obtain ⟨x', hx', hz⟩ := ih hys z hz
      exact ⟨x', List.mem_cons_of_mem x hx', hz⟩

namespace Render.View

/-- What the text of a block needs to be read: the quotes of names and strings close where they
should, no minus sign stands in front of another one, and tables are named and numbered by
words. -/
structure Readable (v : View) : Prop where
  scope : v.clauses.scope.Proper
  shared : ∀ name ∈ v.clauses.scope.rootFrame.shared, ∃ n, name = AliasScope.aliasText n
  names : ∀ id ∈ v.clauses.select, ∀ arg name, v.graph.node id = .named arg name → Named name
  tables : ∀ leaf ∈ v.clauses.leaves, ∀ name, v.physicalName leaf = .ok name → Plain name
  legible : ∀ id ∈ v.values, v.Legible id
  phrases : ∀ id ∈ v.values, ∃ p, v.phrase id = some p ∧ p.All Phrase.SignedAt
  nested : ∀ s ∈ v.nested, ∀ text, s.query () = .ok text → ∃ ts, Spells text ts

variable {v : View} {id leaf : NodeId} {text : String}

theorem plain_value (hg : v.graph.WellFounded) (hv : v.Readable) (hid : id ∈ v.values)
    (h : v.value id = .ok text) :
  Plain text
  := by
  obtain ⟨p, hp, hsigned⟩ := hv.phrases id hid
  have hworded := phrase_worded hv.scope (hv.legible id hid) hp
  have hreadable := phrase_readable hv.scope (hv.legible id hid) hp hsigned
  exact ⟨_, value_spells hg hp h hreadable,
    Phrase.inner_tokens (Phrase.all_wordAt_laidOut hworded)⟩

theorem exists_label (hv : v.Readable) {label : String} (h : v.clauses.scope.alias? leaf = some label) :
  ∃ n, label = AliasScope.aliasText n
  := by
  obtain ⟨n, _, hlabel⟩ := hv.scope.numbered _ (AliasScope.mem_of_aliasIn? _ h)
  exact ⟨n, hlabel⟩

theorem plain_starText (hv : v.Readable) :
  Plain (v.starText id)
  := by
  rw [starText]
  split
  case isTrue =>
      split
      case h_1 label hlabel =>
          obtain ⟨n, rfl⟩ := exists_label hv hlabel
          have hchars : ∀ c ∈ ['.', '*'], Role.of c = .other :=
            List.forall_mem_cons.mpr ⟨rfl, List.forall_mem_singleton.mpr rfl⟩
          exact plain_label n hchars
      case h_2 => exact .of_tokens rfl
  case isFalse => exact .of_tokens rfl

theorem plain_item (hg : v.graph.WellFounded) (hv : v.Readable) (hid : id ∈ v.clauses.select)
    (h : v.item id = .ok text) :
  Plain text
  := by
  have hvalues : ∀ value, v.itemValue? id = some value → value ∈ v.values := by
    intro value hvalue
    rw [values, List.append_assoc, List.append_assoc, List.append_assoc]
    exact List.mem_append_left _ (List.mem_filterMap.mpr ⟨id, hid, hvalue⟩)
  rw [View.item] at h
  rw [itemValue?] at hvalues
  cases hn : v.graph.node id
  case named arg name =>
      rw [hn] at h hvalues
      obtain ⟨inner, hinner, h⟩ := exists_of_bind_eq_ok h
      cases h
      exact (plain_value hg hv (hvalues arg rfl) hinner).parted
        (plain_of_isAtom (isAtom_quoted (hv.names id hid arg name hn)))
        (.of_tokens rfl) rfl rfl
  case join =>
      rw [hn] at h
      cases h
      exact .of_tokens rfl
  all_goals
    simp only [hn, Node.isRelation, if_true, Bool.false_eq_true, if_false] at h hvalues
  case table | view | projection | selection | aggregation | sort | limit | distinct | union =>
      cases h
      exact plain_starText hv
  all_goals exact plain_value hg hv (hvalues id rfl) h

/-! ### Select lists -/

/-- An item stands behind a text at which words end. -/
theorem exists_placeItem (options : Options) (first : Bool) (line : Line) {item : String}
    (h : Plain item) :
  ∃ sep placed, (placeItem options first line item).1 = sep ++ placed ∧ Plain sep ∧ starts sep
    ∧ ends sep ∧ Plain placed
  := by
  obtain ⟨e, line', hitem, hplaces⟩ := exists_places options first line item
  have hgap : Plain e.gap ∧ starts e.gap = true ∧ ends e.gap = true := by
    cases hplaces <;> cases first <;> dsimp only <;> exact ⟨.of_tokens rfl, by decide, by decide⟩
  have hbody : Plain e.body := by
    cases hplaces with
    | block _ => exact h.indent _
    | wrapped _ _ => exact h
    | joined _ _ => exact h
  exact ⟨e.gap, e.body, congrArg Prod.fst hitem, hgap.1, hgap.2.1, hgap.2.2, hbody⟩

/-- The items of a select list, behind a text. -/
theorem spells_placeItems (options : Options) {items : List String} (h : ∀ item ∈ items, Plain item) :
    ∀ (first : Bool) (line : Line), ∃ ts, Inner ts ∧ ∀ {s : String} {us : List Token}, Spells s us →
      Spells (s ++ placeItems options first line items) (us ++ ts) := by
  induction items with
  | nil =>
      intro first line
      refine ⟨[], nofun, fun hs => ?_⟩
      rw [placeItems, String.append_empty, List.append_nil]
      exact hs
  | cons item items ih =>
      intro first line
      rw [List.forall_mem_cons] at h
      obtain ⟨sep, placed, hplace, ⟨ks, hks, hinner⟩, hstarts, hends, ts, hts, hinner'⟩ :=
        exists_placeItem options first line h.1
      obtain ⟨us, hus, hrest⟩ := ih h.2 false (placeItem options first line item).2
      refine ⟨ks ++ ts ++ us, (hinner.append hinner').append hus, fun hs => ?_⟩
      have hwhole := hrest (hs.parted hts hks hstarts hends)
      simp only [placeItems, hplace]
      simpa only [String.append_assoc, List.append_assoc] using hwhole

/-- The select list starts with `SELECT`. -/
theorem spells_selectList (hg : v.graph.WellFounded) (hv : v.Readable) (h : v.selectList = .ok text) :
  ∃ ts, Spells text (.keyword .SELECT :: ts) ∧ Inner ts
  := by
  rw [selectList] at h
  obtain ⟨items, hitems, h⟩ := exists_of_bind_eq_ok h
  cases h
  have hplain : ∀ item ∈ items, Plain item := by
    intro item hitem
    obtain ⟨id, hid, htext⟩ := exists_of_mem_mapM hitems item hitem
    exact plain_item hg hv hid htext
  obtain ⟨ts, hinner, hplaced⟩ := spells_placeItems v.options hplain true ⟨0, 0⟩
  rw [selectItems]
  split
  · exact ⟨.word "DISTINCT".toList :: ts,
      hplaced (show Spells "SELECT DISTINCT" [.keyword .SELECT, .word "DISTINCT".toList] from rfl),
      List.forall_mem_cons.mpr ⟨rfl, hinner⟩⟩
  · exact ⟨ts, hplaced (show Spells "SELECT" [.keyword .SELECT] from rfl), hinner⟩

/-! ### Clauses -/

theorem plain_table (hv : v.Readable) (hleaf : leaf ∈ v.clauses.leaves) (h : v.table leaf = .ok text) :
  Plain text
  := by
  rw [View.table] at h
  split at h
  case h_1 => cases h
  case h_2 label hlabel =>
      obtain ⟨n, rfl⟩ := exists_label hv hlabel
      have hspace : Plain " " := .of_tokens rfl
      split at h
      case h_1 derived hderived =>
          split at h
          case h_1 index hindex =>
              split at h
              case h_1 => cases h
              case h_2 name hname =>
                  obtain ⟨m, rfl⟩ := hv.shared name (List.mem_of_getElem? hname)
                  cases h
                  split
                  · exact plain_aliasText m
                  · exact (plain_aliasText m).parted (plain_aliasText n) hspace rfl rfl
          case h_2 =>
              obtain ⟨query, hquery, h⟩ := exists_of_bind_eq_ok h
              cases h
              obtain ⟨ts, hts⟩ := hv.nested derived (List.mem_of_find?_eq_some hderived) query hquery
              have hsplit : "(\n" ++ indent v.options.indent query ++ "\n) " ++ AliasScope.aliasText n
                  = "(" ++ ("\n" ++ indent v.options.indent query ++ "\n") ++ ")" ++ " "
                    ++ AliasScope.aliasText n := by
                rw [show "(\n" = "(" ++ "\n" from rfl, show "\n) " = "\n" ++ ")" ++ " " from rfl]
                simp only [String.append_assoc]
              rw [hsplit]
              exact (Plain.of_spells (hts.onLines v.options.indent).group rfl).parted
                (plain_aliasText n) hspace rfl rfl
      case h_2 =>
          obtain ⟨name, hname, h⟩ := exists_of_bind_eq_ok h
          cases h
          have hplain := hv.tables leaf hleaf name hname
          split
          · exact hplain.parted (plain_aliasText n) hspace rfl rfl
          · exact hplain

theorem plain_values (hg : v.graph.WellFounded) (hv : v.Readable) {ids : List NodeId}
    (hids : ∀ id ∈ ids, id ∈ v.values) {sep : String} (hsep : Plain sep) (hstarts : starts sep)
    (hends : ends sep) {texts : List String} (h : ids.mapM v.value = .ok texts) :
  Plain (joinWith sep texts)
  := by
  refine .joinWith hsep hstarts hends fun text htext => ?_
  obtain ⟨id, hid, hvalue⟩ := exists_of_mem_mapM h text htext
  exact plain_value hg hv (hids id hid) hvalue

theorem plain_predicate (hg : v.graph.WellFounded) (hv : v.Readable) (hid : id ∈ v.values)
    (h : v.predicate id = .ok text) :
  Plain text
  := by
  rw [View.predicate] at h
  obtain ⟨inner, hinner, h⟩ := exists_of_bind_eq_ok h
  have hplain := plain_value hg hv hid hinner
  split at h
  · cases h
    obtain ⟨ts, hts, _⟩ := hplain
    exact .of_spells hts.group rfl
  · cases h
    exact hplain

/-- The predicates of a clause, behind its keyword. -/
theorem plain_predicates (hg : v.graph.WellFounded) (hv : v.Readable) {ids : List NodeId}
    (hids : ∀ id ∈ ids, id ∈ v.values) {head sep : String} (hhead : Plain head) (hend : ends head)
    (hsep : Plain sep) (hstarts : starts sep) (hends : ends sep) {lines : List String}
    (h : (if ids = [] then return [] else do return [head ++ joinWith sep (← v.predicates ids)])
      = Except.ok lines) :
  ∀ line ∈ lines, Plain line
  := by
  split at h
  · cases h
    exact List.forall_mem_nil _
  · obtain ⟨texts, htexts, h⟩ := exists_of_bind_eq_ok h
    cases h
    refine List.forall_mem_singleton.mpr (hhead.append_of_ends (.joinWith hsep hstarts hends ?_) hend)
    intro text htext
    obtain ⟨id, hid, hpredicate⟩ := exists_of_mem_mapM htexts text htext
    exact plain_predicate hg hv (hids id hid) hpredicate

theorem plain_joinText (hg : v.graph.WellFounded) (hv : v.Readable) {t : TableSet}
    (ht : v.clauses.from? = some t) {c : JoinClause} (hc : c ∈ t.joins) (h : v.joinText c = .ok text) :
  Plain text
  := by
  have hleaf : c.table ∈ v.clauses.leaves := by
    rw [Clauses.leaves, ht]
    exact List.mem_cons_of_mem _ (List.mem_map_of_mem hc)
  have hkeyword : Plain (joinKeyword c.kind) := by
    cases c.kind <;> exact .of_tokens rfl
  rw [View.joinText] at h
  obtain ⟨table, htable, h⟩ := exists_of_bind_eq_ok h
  have hhead := hkeyword.parted (plain_table hv hleaf htable) (show Plain " " from .of_tokens rfl)
    rfl rfl
  split at h
  · cases h
    exact hhead
  · obtain ⟨texts, htexts, h⟩ := exists_of_bind_eq_ok h
    cases h
    have hids : ∀ id ∈ c.predicates, id ∈ v.values := by
      intro id hid
      simp only [values, List.mem_append, List.mem_flatMap]
      exact .inl (.inl (.inl (.inr ⟨t, by rw [ht]; exact List.mem_singleton_self t, c, hc, hid⟩)))
    have hon := Plain.append_of_ends (show Plain "ON " from .of_tokens rfl)
      (plain_values hg hv hids (show Plain " AND\n   " from .of_tokens rfl)
        rfl rfl htexts) rfl
    exact hhead.parted (hon.indent _) (show Plain "\n" from .of_tokens rfl) rfl rfl

theorem plain_fromClause (hg : v.graph.WellFounded) (hv : v.Readable) {lines : List String}
    (h : v.fromClause = .ok lines) :
  ∀ line ∈ lines, Plain line
  := by
  rw [View.fromClause] at h
  split at h
  case h_1 =>
      cases h
      exact List.forall_mem_nil _
  case h_2 t ht =>
      obtain ⟨source, hsource, h⟩ := exists_of_bind_eq_ok h
      cases h
      rw [View.fromText] at hsource
      obtain ⟨first, hfirst, hsource⟩ := exists_of_bind_eq_ok hsource
      obtain ⟨joins, hjoins, hsource⟩ := exists_of_bind_eq_ok hsource
      cases hsource
      have hleaf : t.first ∈ v.clauses.leaves := by
        rw [Clauses.leaves, ht]
        exact List.mem_cons_self
      refine List.forall_mem_singleton.mpr (Plain.append_of_ends
        (show Plain "FROM " from .of_tokens rfl) (.joinWith
          (show Plain "\n" from .of_tokens rfl) rfl rfl (List.forall_mem_cons.mpr
            ⟨plain_table hv hleaf hfirst, List.forall_mem_map.mpr fun join hjoin => ?_⟩)) rfl)
      obtain ⟨c, hc, htext⟩ := exists_of_mem_mapM hjoins join hjoin
      exact (plain_joinText hg hv ht hc htext).indent _

theorem plain_natText (n : Nat) :
  Plain (Graph.natText n)
  := plain_of_isNumeral (isNumeral_digits n)

theorem plain_groupClause :
  ∀ line ∈ v.groupClause, Plain line
  := by
  rw [View.groupClause]
  split
  · exact nofun
  · refine List.forall_mem_singleton.mpr (Plain.append_of_ends
      (show Plain "GROUP BY " from .of_tokens rfl)
      (.joinWith (show Plain ", " from .of_tokens rfl) rfl rfl
        (List.forall_mem_map.mpr fun i _ => plain_natText (i + 1))) rfl)

theorem plain_orderKey (hg : v.graph.WellFounded) (hv : v.Readable) {k : SortKey}
    (hk : k ∈ v.clauses.orderBy) (h : v.orderKey k = .ok text) :
  Plain text
  := by
  rw [View.orderKey] at h
  obtain ⟨value, hvalue, h⟩ := exists_of_bind_eq_ok h
  cases h
  have hplain := plain_value hg hv (List.mem_append_right _ (List.mem_map_of_mem hk)) hvalue
  split
  · rw [String.append_empty]
    exact hplain
  · exact hplain.append_of_starts (.of_tokens rfl) rfl

/-! ### Blocks -/

/-- The lines of the block in front of its ORDER BY clause. -/
def coreText (v : View) : Result := do
  let list ← v.selectList
  let source ← v.fromClause
  let filter ← v.whereClause
  let having ← v.havingClause
  return joinWith "\n" (list :: (source ++ filter ++ v.groupClause ++ having))

theorem joinWith_append_cons (sep first line : String) (more : List String) :
  joinWith sep ((first ++ line) :: more) = first ++ joinWith sep (line :: more)
  := by
  cases more with
  | nil => rfl
  | cons next more => simp only [joinWith, String.append_assoc]

/-- Lines that go on after the first ones. -/
theorem joinWith_append (sep line : String) (lines more : List String) :
  joinWith sep (line :: (lines ++ more)) = joinWith sep (joinWith sep (line :: lines) :: more)
  := by
  induction lines generalizing line with
  | nil => rfl
  | cons next lines ih =>
      calc joinWith sep (line :: next :: (lines ++ more))
          = line ++ sep ++ joinWith sep (next :: (lines ++ more)) := rfl
        _ = line ++ sep ++ joinWith sep (joinWith sep (next :: lines) :: more) := by rw [ih]
        _ = joinWith sep ((line ++ sep ++ joinWith sep (next :: lines)) :: more) := by
          rw [joinWith_append_cons]
        _ = joinWith sep (joinWith sep (line :: next :: lines) :: more) := rfl

/-- The block is its first lines, its ORDER BY clause and its LIMIT clause. -/
theorem text_eq (v : View) :
  v.text = do
    let core ← v.coreText
    let order ← v.orderClause
    return joinWith "\n" (core :: (order ++ v.limitClause))
  := by
  rw [View.text, coreText]
  simp only [bind_assoc, pure_bind, List.append_assoc, ← joinWith_append]

/-- The first lines of a block start with `SELECT`, and go on with tokens none of which a query or
a clause starts with. -/
theorem spells_coreText (hg : v.graph.WellFounded) (hv : v.Readable) (h : v.coreText = .ok text) :
  ∃ ts, Spells text (.keyword .SELECT :: ts) ∧ Inner ts
  := by
  have hpredicates : ∀ id ∈ v.clauses.predicates, id ∈ v.values := fun id hid =>
    List.mem_append_left _ (List.mem_append_left _ (List.mem_append_right _ hid))
  have hconditions : ∀ id ∈ v.clauses.having, id ∈ v.values := fun id hid =>
    List.mem_append_left _ (List.mem_append_right _ hid)
  rw [coreText] at h
  obtain ⟨list, hlist, h⟩ := exists_of_bind_eq_ok h
  obtain ⟨source, hsource, h⟩ := exists_of_bind_eq_ok h
  obtain ⟨filter, hfilter, h⟩ := exists_of_bind_eq_ok h
  obtain ⟨having, hhaving, h⟩ := exists_of_bind_eq_ok h
  cases h
  obtain ⟨ts, hts, hinner⟩ := spells_selectList hg hv hlist
  have hwhere := plain_predicates hg hv hpredicates (show Plain "WHERE " from .of_tokens rfl) rfl
    (show Plain " AND\n      " from .of_tokens rfl) rfl rfl hfilter
  have hgroups := plain_predicates hg hv hconditions (show Plain "HAVING " from .of_tokens rfl) rfl
    (show Plain " AND\n       " from .of_tokens rfl) rfl rfl hhaving
  have hlines : ∀ line ∈ source ++ filter ++ v.groupClause ++ having, Plain line := by
    simp only [List.forall_mem_append]
    exact ⟨⟨⟨plain_fromClause hg hv hsource, hwhere⟩, plain_groupClause⟩, hgroups⟩
  have hbreak : Plain "\n" := .of_tokens rfl
  cases hrest : source ++ filter ++ v.groupClause ++ having with
  | nil => exact ⟨ts, hts, hinner⟩
  | cons line lines =>
      rw [hrest] at hlines
      obtain ⟨us, hus, hinner'⟩ := Plain.joinWith hbreak rfl rfl hlines
      refine ⟨ts ++ us, ?_, hinner.append hinner'⟩
      have hwhole := hts.parted hus (show Spells "\n" [] from rfl) rfl rfl
      rwa [List.append_nil] at hwhole

end Render.View

end RelSql
