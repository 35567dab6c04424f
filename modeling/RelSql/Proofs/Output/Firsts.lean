import Mathlib.Data.List.Forall2
import Mathlib.Data.List.Nodup

/-!
# First occurrences

Of equal elements of a list the first one is kept.  What is kept of a list put together from
parts depends on what is kept of the parts only.
-/

namespace RelSql

variable {α β γ : Type} [BEq α] [LawfulBEq α]

/-- Keeping first occurrences commutes with filtering. -/
theorem eraseDups_filter (p : α → Bool) (l : List α) :
  (l.filter p).eraseDups = l.eraseDups.filter p
  := by
  induction h : l.length using Nat.strongRecOn generalizing l p with
  | ind n ih =>
      cases l with
      | nil => rfl
      | cons a l =>
          have hshort : ∀ q : α → Bool, (l.filter q).length < n := by
            intro q
            rw [← h, List.length_cons]
            exact Nat.lt_succ_of_le (List.length_filter_le q l)
          have hlt : l.length < n := by
            rw [← h]
            exact Nat.lt_succ_self _
          rw [List.filter_cons]
          cases ha : p a with
          | true =>
              rw [if_pos rfl, List.eraseDups_cons, List.eraseDups_cons, List.filter_cons, if_pos ha,
                ih _ (hshort p) _ _ rfl, ih _ hlt _ _ rfl, ih _ hlt _ _ rfl, List.filter_filter,
                List.filter_filter]
              congr 2
              funext b
              exact Bool.and_comm _ _
          | false =>
              rw [if_neg Bool.false_ne_true, List.eraseDups_cons, List.filter_cons, ha,
                if_neg Bool.false_ne_true, ih _ hlt _ _ rfl, ih _ hlt _ _ rfl, List.filter_filter]
              apply List.filter_congr
              intro b _
              by_cases hab : b = a
              · rw [hab, ha, Bool.false_and]
              · simp [hab]

/-- The first one of a list is kept, and the others that are not equal to it. -/
theorem eraseDups_cons_eq (a : α) (l : List α) :
  (a :: l).eraseDups = a :: l.eraseDups.filter fun b => !b == a
  := by
  rw [List.eraseDups_cons, eraseDups_filter]

theorem eraseDups_sublist (l : List α) :
  l.eraseDups.Sublist l
  := by
  induction l with
  | nil => exact List.Sublist.slnil
  | cons a l ih =>
      rw [eraseDups_cons_eq]
      apply List.Sublist.cons_cons
      exact List.filter_sublist.trans ih

/-- No element is kept twice. -/
theorem nodup_eraseDups (l : List α) :
  l.eraseDups.Nodup
  := by
  induction l with
  | nil => exact List.nodup_nil
  | cons a l ih =>
      rw [eraseDups_cons_eq, List.nodup_cons]
      refine ⟨?_, ih.filter _⟩
      simp

/-- Pairwise distinct elements are all kept. -/
theorem eraseDups_of_nodup {l : List α} (h : l.Nodup) :
  l.eraseDups = l
  := by
  induction l with
  | nil => rfl
  | cons a l ih =>
      obtain ⟨ha, hl⟩ := List.nodup_cons.mp h
      rw [eraseDups_cons_eq, ih hl, List.filter_eq_self.mpr]
      intro b hb
      simpa using fun hab : b = a => ha (hab ▸ hb)

/-- Keeping first occurrences twice keeps no less. -/
theorem eraseDups_eraseDups (l : List α) :
  l.eraseDups.eraseDups = l.eraseDups
  := eraseDups_of_nodup (nodup_eraseDups l)

/-- Of a list after another one, what the other one does not have is kept. -/
theorem eraseDups_append_eq (l l' : List α) :
  (l ++ l').eraseDups = l.eraseDups ++ l'.eraseDups.filter fun a => !l.eraseDups.contains a
  := by
  rw [List.eraseDups_append, List.removeAll, eraseDups_filter]
  congr 2
  funext a
  simp

/-- What is kept of two lists, one after the other, depends on what is kept of each. -/
theorem eraseDups_append_congr {k k' l l' : List α} (h : k.eraseDups = k'.eraseDups)
    (h' : l.eraseDups = l'.eraseDups) :
  (k ++ l).eraseDups = (k' ++ l').eraseDups
  := by
  rw [eraseDups_append_eq, eraseDups_append_eq, h, h']

/-- Nothing is kept of what is there before. -/
theorem eraseDups_append_of_subset {l l' : List α} (h : l' ⊆ l) :
  (l ++ l').eraseDups = l.eraseDups
  := by
  rw [eraseDups_append_eq, List.filter_eq_nil_iff.mpr, List.append_nil]
  intro a ha
  simpa using h (List.mem_eraseDups.mp ha)

/-- What is kept of the parts of related lists is the same when it is the same for each part. -/
theorem eraseDups_flatMap_congr {f : β → List α} {f' : γ → List α} {l : List β} {l' : List γ}
    (h : List.Forall₂ (fun b c => (f b).eraseDups = (f' c).eraseDups) l l') :
  (l.flatMap f).eraseDups = (l'.flatMap f').eraseDups
  := by
  induction h with
  | nil => rfl
  | cons hbc _ ih =>
      rw [List.flatMap_cons, List.flatMap_cons]
      exact eraseDups_append_congr hbc ih

end RelSql
