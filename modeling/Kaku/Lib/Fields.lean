-- SUMMARY: The fields of a list: the runs between its separators that are not empty, and joining them again.
import Mathlib.Data.List.TakeWhile
import Mathlib.Data.List.Basic

/-!
# Fields

A list is read from left to right: separators are skipped, and a field goes on to the next
separator. Empty runs between two separators are no fields.
-/

namespace Kaku

variable {α β : Type*} {p : α → Bool} {a x : α} {l f : List α} {fs : List (List α)}

/-- The non-empty runs between the separators. -/
def fields (p : α → Bool) : List α → List (List α)
  | [] => []
  | a :: l =>
    if p a then fields p l else (a :: l.takeWhile (!p ·)) :: fields p (l.dropWhile (!p ·))
termination_by l => l.length
decreasing_by
  · simp
  · exact Nat.lt_succ_of_le (List.length_dropWhile_le (!p ·) l)

@[simp] theorem fields_nil : fields p [] = [] := by rw [fields]

theorem fields_cons_sep (ha : p a) : fields p (a :: l) = fields p l := by rw [fields, if_pos ha]

theorem fields_cons (ha : ¬ p a) :
    fields p (a :: l) = (a :: l.takeWhile (!p ·)) :: fields p (l.dropWhile (!p ·)) := by
  rw [fields, if_neg ha]

/-- Separators at the start do not count. -/
theorem fields_dropWhile : fields p (l.dropWhile p) = fields p l := by
  induction l with
  | nil => rfl
  | cons a l ih =>
    by_cases ha : p a
    · rw [List.dropWhile_cons_of_pos ha, ih, fields_cons_sep ha]
    · rw [List.dropWhile_cons_of_neg ha]

/-- A field at the start, up to a separator or the end. -/
theorem fields_append {rest : List α} (hne : f ≠ []) (hf : ∀ a ∈ f, ¬ p a)
    (hrest : ∀ b ∈ rest.head?, p b) : fields p (f ++ rest) = f :: fields p rest := by
  cases f with
  | nil => exact absurd rfl hne
  | cons a f =>
    have ha := hf a List.mem_cons_self
    have hall : ∀ b ∈ f, (!p b) = true := by
      intro b hb
      simpa using hf b (List.mem_cons_of_mem a hb)
    rw [List.cons_append, fields_cons ha, List.takeWhile_append_of_pos hall,
      List.dropWhile_append_of_pos hall]
    cases rest with
    | nil => simp
    | cons b r =>
      have hb : ¬ (!p b) = true := by simpa using hrest b rfl
      rw [List.takeWhile_cons_of_neg (p := (!p ·)) hb, List.dropWhile_cons_of_neg (p := (!p ·)) hb,
        List.append_nil]

/-- A field is not empty, has no separator, and is no longer than the list. -/
theorem of_mem_fields (hf : f ∈ fields p l) : f ≠ [] ∧ (∀ a ∈ f, ¬ p a) ∧ f.length ≤ l.length := by
  fun_induction fields p l with
  | case1 => cases hf
  | case2 a l ha ih =>
    obtain ⟨hne, hsep, hlen⟩ := ih hf
    exact ⟨hne, hsep, hlen.trans (Nat.le_succ _)⟩
  | case3 a l ha ih =>
    rcases List.mem_cons.1 hf with rfl | hf
    · refine ⟨List.cons_ne_nil _ _, List.forall_mem_cons.2 ⟨ha, fun b hb => ?_⟩, ?_⟩
      · simpa using List.mem_takeWhile_imp hb
      · exact Nat.succ_le_succ (List.takeWhile_sublist _).length_le
    · obtain ⟨hne, hsep, hlen⟩ := ih hf
      exact ⟨hne, hsep, hlen.trans ((List.length_dropWhile_le _ l).trans (Nat.le_succ _))⟩

theorem mem_of_mem_fields (hf : f ∈ fields p l) (ha : a ∈ f) : a ∈ l := by
  fun_induction fields p l with
  | case1 => cases hf
  | case2 b l hb ih => exact List.mem_cons_of_mem b (ih hf)
  | case3 b l hb ih =>
    rcases List.mem_cons.1 hf with rfl | hf
    · rcases List.mem_cons.1 ha with rfl | ha
      · exact List.mem_cons_self
      · exact List.mem_cons_of_mem b ((List.takeWhile_subset _) ha)
    · exact List.mem_cons_of_mem b ((List.dropWhile_subset _) (ih hf))

theorem length_fields_le (l : List α) : (fields p l).length ≤ l.length := by
  fun_induction fields p l with
  | case1 => exact le_rfl
  | case2 a l ha ih => exact ih.trans (Nat.le_succ _)
  | case3 a l ha ih => exact Nat.succ_le_succ (ih.trans (List.length_dropWhile_le _ l))

/-- Between two fields there is a separator. -/
theorem fields_two {g : List α} (hl : fields p l = f :: g :: fs) :
    f.length + g.length + 1 ≤ l.length := by
  fun_induction fields p l with
  | case1 => cases hl
  | case2 a l ha ih => exact (ih hl).trans (Nat.le_succ _)
  | case3 a l ha ih =>
    obtain ⟨rfl, htail⟩ := List.cons.inj hl
    have hsplit := congrArg List.length (List.takeWhile_append_dropWhile (p := (!p ·)) (l := l))
    rw [List.length_append] at hsplit
    cases hrest : l.dropWhile (!p ·) with
    | nil => simp [hrest] at htail
    | cons b r =>
      have hb : p b := by
        have hhead := List.head?_dropWhile_not (!p ·) l
        simpa [hrest] using hhead
      rw [hrest, fields_cons_sep hb] at htail
      have hg : g ∈ fields p r := by
        rw [htail]
        exact List.mem_cons_self
      have hlen := (of_mem_fields hg).2.2
      rw [hrest, List.length_cons] at hsplit
      rw [List.length_cons, List.length_cons]
      omega

/-- Each step over the list is a step over its fields, where the empty run is none. -/
theorem foldl_splitOnP {step : β → List α → β} (hstep : ∀ b, step b [] = b) (b : β) :
    (l.splitOnP p).foldl step b = (fields p l).foldl step b := by
  fun_induction fields p l generalizing b with
  | case1 => simp [hstep]
  | case2 a l ha ih =>
    rw [List.splitOnP_cons_eq_if_modifyHead, if_pos ha, List.foldl_cons, hstep, ih]
  | case3 a l ha ih =>
    have hsplit : a :: l = (a :: l.takeWhile (!p ·)) ++ l.dropWhile (!p ·) := by
      rw [List.cons_append, List.takeWhile_append_dropWhile]
    have hfield : ∀ c ∈ a :: l.takeWhile (!p ·), p c = false := by
      refine List.forall_mem_cons.2 ⟨by simpa using ha, fun c hc => ?_⟩
      simpa using List.mem_takeWhile_imp hc
    rw [List.foldl_cons, ← ih]
    cases hrest : l.dropWhile (!p ·) with
    | nil =>
      rw [hrest, List.append_nil] at hsplit
      rw [hsplit, List.splitOnP_eq_singleton hfield]
      simp [hstep]
    | cons c r =>
      have hc : p c = true := by
        have hhead := List.head?_dropWhile_not (!p ·) l
        simpa [hrest] using hhead
      rw [hrest] at hsplit
      rw [hsplit, List.splitOnP_append_cons_of_forall_mem hfield c hc,
        List.splitOnP_cons_eq_if_modifyHead, if_pos hc, List.foldl_cons, List.foldl_cons, hstep]

/-- The fields of a joined list are the fields that were joined. -/
theorem fields_intercalate [DecidableEq α] (hfs : ∀ f ∈ fs, f ≠ [] ∧ x ∉ f) :
    fields (· == x) ([x].intercalate fs) = fs := by
  induction fs with
  | nil => simp
  | cons f fs ih =>
    obtain ⟨⟨hne, hx⟩, hrest⟩ := List.forall_mem_cons.1 hfs
    have hf : ∀ a ∈ f, ¬ (a == x) = true := by
      intro a ha hax
      rw [beq_iff_eq] at hax
      exact hx (hax ▸ ha)
    cases fs with
    | nil =>
      have hnil : ∀ b ∈ ([] : List α).head?, (b == x) = true := by simp
      have halone := fields_append hne hf hnil
      simpa using halone
    | cons g gs =>
      have hjoin : [x].intercalate (f :: g :: gs) = f ++ x :: [x].intercalate (g :: gs) := by
        simp [List.intercalate]
      rw [hjoin, fields_append hne hf (by simp), fields_cons_sep (by simp), ih hrest]

end Kaku
