-- SUMMARY: Taking turns over a queue that grows and shrinks: the cyclic order after an entry, and why nobody is passed over.
import Mathlib.Data.List.Induction
import Mathlib.Tactic.Order

/-!
# Turns

A queue is served in turns. Each turn takes the first entry that is ready, in cyclic
order after the entry taken last. Entries may come and go between turns. As long as
every queue is sorted by a key, the cyclic order after an entry does not depend on
the queue, and that is what makes the service fair: two turns of one entry enclose a
turn of every other entry that was ready all along.
-/

namespace Kaku

/-! ## The cyclic order after a key -/

section Order

variable {κ : Type*} [LinearOrder κ] {l a b c : κ}

/-- Starting after `l` and going round, `a` comes before `b`; `l` itself comes last. -/
def Ahead (l a b : κ) : Prop :=
  (l < a ∧ a < b) ∨ (a < b ∧ b ≤ l) ∨ (b ≤ l ∧ l < a)

theorem ahead_last (h : a ≠ l) : Ahead l a l := by
  rcases lt_or_gt_of_ne h with hlt | hgt
  · exact .inr (.inl ⟨hlt, le_rfl⟩)
  · exact .inr (.inr ⟨le_rfl, hgt⟩)

theorem Ahead.asymm (h : Ahead l a b) : ¬ Ahead l b a := by
  rintro (⟨h₁, h₂⟩ | ⟨h₁, h₂⟩ | ⟨h₁, h₂⟩) <;> rcases h with ⟨h₃, h₄⟩ | ⟨h₃, h₄⟩ | ⟨h₃, h₄⟩ <;>
    order

/-- Having gone on to `c`, what was ahead is still ahead. -/
theorem Ahead.advance (hc : Ahead l c a) (h : Ahead l a b) : Ahead c a b := by
  rcases hc with ⟨h₁, h₂⟩ | ⟨h₁, h₂⟩ | ⟨h₁, h₂⟩ <;> rcases h with ⟨h₃, h₄⟩ | ⟨h₃, h₄⟩ | ⟨h₃, h₄⟩
  · exact .inl ⟨h₂, h₄⟩
  · exact .inl ⟨h₂, h₃⟩
  · exact .inr (.inr ⟨by order, h₂⟩)
  · exact .inl ⟨h₁, h₄⟩
  · exact .inl ⟨h₁, h₃⟩
  · exfalso; order
  · exfalso; order
  · exact .inr (.inl ⟨h₃, by order⟩)
  · exfalso; order

end Order

/-! ## Turns -/

/-- One turn: the queue, which entries are ready, and the entry taken. -/
structure Turn (α : Type*) where
  queue : List α
  ready : α → Bool
  next : Option α

variable {α κ : Type*} {ts earlier : List (Turn α)} {t : Turn α} {l a b n : α}

/-- The entry taken last. -/
def lastTaken (ts : List (Turn α)) : Option α := (ts.filterMap Turn.next).getLast?

/-- The turn takes the first ready entry in cyclic order after the one taken last. -/
def Turn.Follows (t : Turn α) : Option α → Prop
  | none => t.next = t.queue.find? t.ready
  | some l => ∃ before after, t.queue = before ++ l :: after ∧
      t.next = (after ++ before ++ [l]).find? t.ready

/-- Every turn follows the ones before it. -/
def InTurn (ts : List (Turn α)) : Prop :=
  ∀ earlier t later, ts = earlier ++ t :: later → t.Follows (lastTaken earlier)

/-- Between two turns of `a` in a row, every other entry that was in the queue and
ready at all turns from there to the second has had one. -/
def Fair (ts : List (Turn α)) : Prop :=
  ∀ earlier t₁ between t₂ later a b, ts = earlier ++ t₁ :: (between ++ t₂ :: later) →
    t₁.next = some a → t₂.next = some a → (∀ t ∈ between, t.next ≠ some a) → b ≠ a →
    (∀ t ∈ between ++ [t₂], b ∈ t.queue ∧ t.ready b = true) → ∃ t ∈ between, t.next = some b

theorem lastTaken_snoc : lastTaken (ts ++ [t]) = t.next.or (lastTaken ts) := by
  cases hn : t.next with
  | none => simp [lastTaken, List.filterMap_append, hn]
  | some n => simp [lastTaken, List.filterMap_append, hn]

theorem InTurn.nil : InTurn ([] : List (Turn α)) := by
  intro earlier t later h
  simp at h

theorem InTurn.snoc (h : InTurn ts) (ht : t.Follows (lastTaken ts)) : InTurn (ts ++ [t]) := by
  intro earlier t' later heq
  rcases List.eq_nil_or_concat later with rfl | ⟨later, t'', rfl⟩
  · obtain ⟨rfl, hlast⟩ := List.append_inj' heq rfl
    obtain rfl : t = t' := by simpa using hlast
    exact ht
  · rw [List.concat_eq_append, ← List.cons_append, ← List.append_assoc] at heq
    exact h earlier t' later (List.append_inj' heq rfl).1

/-- A turn takes nothing exactly when no entry is ready. -/
theorem Turn.Follows.none_iff {last : Option α} (h : t.Follows last) :
    t.next = none ↔ ∀ a ∈ t.queue, t.ready a = false := by
  cases last with
  | none =>
    rw [show t.next = t.queue.find? t.ready from h, List.find?_eq_none]
    simp
  | some l =>
    obtain ⟨before, after, hqueue, hnext⟩ := h
    rw [hnext, hqueue, List.find?_eq_none]
    simp only [List.mem_append, List.mem_cons, Bool.not_eq_true]
    grind

/-- In a list sorted by `R`, the first entry with a property is related to every
other entry with it. -/
theorem first_of_pairwise {R : α → α → Prop} {p : α → Bool} {xs : List α} (h : xs.Pairwise R)
    (hn : xs.find? p = some n) (hb : b ∈ xs) (hp : p b = true) : n = b ∨ R n b := by
  induction xs with
  | nil => cases hb
  | cons x xs ih =>
    obtain ⟨hx, hxs⟩ := List.pairwise_cons.1 h
    rw [List.find?_cons] at hn
    cases hpx : p x with
    | true =>
      rw [hpx] at hn
      obtain rfl := Option.some.inj hn
      rcases List.mem_cons.1 hb with rfl | hmem
      · exact .inl rfl
      · exact .inr (hx b hmem)
    | false =>
      rw [hpx] at hn
      rcases List.mem_cons.1 hb with rfl | hmem
      · rw [hp] at hpx
        cases hpx
      · exact ih hxs hn hmem

section Sorted

variable [LinearOrder κ] {key : α → κ}

/-- A sorted queue, turned so that it starts after `l`, is in the order after `l`. -/
theorem pairwise_ahead {before after : List α}
    (h : (before ++ l :: after).Pairwise fun a b => key a < key b) :
    (after ++ before ++ [l]).Pairwise fun a b => Ahead (key l) (key a) (key b) := by
  obtain ⟨hbefore, hrest, hcross⟩ := List.pairwise_append.1 h
  obtain ⟨hl, hafter⟩ := List.pairwise_cons.1 hrest
  have hlow : ∀ x ∈ before, key x < key l := fun x hx => hcross x hx l (List.mem_cons_self ..)
  rw [List.pairwise_append, List.pairwise_append]
  refine ⟨⟨?_, ?_, ?_⟩, List.pairwise_singleton .., ?_⟩
  · exact hafter.imp_of_mem fun hx _ hxy => .inl ⟨hl _ hx, hxy⟩
  · exact hbefore.imp_of_mem fun _ hy hxy => .inr (.inl ⟨hxy, (hlow _ hy).le⟩)
  · intro x hx y hy
    exact .inr (.inr ⟨(hlow y hy).le, hl x hx⟩)
  · intro x hx y hy
    obtain rfl := List.mem_singleton.1 hy
    apply ahead_last
    rcases List.mem_append.1 hx with hx | hx
    · exact (hl x hx).ne'
    · exact (hlow x hx).ne

/-- What a turn takes is not behind anything that is ready. -/
theorem Turn.Follows.first (h : t.Follows (some l))
    (hsorted : t.queue.Pairwise fun a b => key a < key b) (hqueue : b ∈ t.queue)
    (hb : t.ready b = true) :
    ∃ n, t.next = some n ∧ (n = b ∨ Ahead (key l) (key n) (key b)) := by
  obtain ⟨before, after, heq, hnext⟩ := h
  have hmem : b ∈ after ++ before ++ [l] := by
    rw [heq] at hqueue
    simp only [List.mem_append, List.mem_cons] at hqueue ⊢
    grind
  rw [heq] at hsorted
  cases hn : t.next with
  | none =>
    rw [hnext, List.find?_eq_none] at hn
    exact absurd hb (hn b hmem)
  | some n =>
    refine ⟨n, rfl, ?_⟩
    rw [hnext] at hn
    exact first_of_pairwise (pairwise_ahead hsorted) hn hmem hb

/-- Nobody is passed over. -/
theorem InTurn.fair (h : InTurn ts) (hkey : Function.Injective key)
    (hsorted : ∀ t ∈ ts, t.queue.Pairwise fun a b => key a < key b) : Fair ts := by
  intro earlier t₁ between t₂ later a b heq ha₁ ha₂ hno hne hb
  by_contra hpassed
  simp only [not_exists, not_and] at hpassed
  have hfirst : ∀ done t rest l, between ++ t₂ :: later = done ++ t :: rest →
      t ∈ between ++ [t₂] → lastTaken (earlier ++ t₁ :: done) = some l →
        ∃ n, t.next = some n ∧ (n = b ∨ Ahead (key l) (key n) (key b)) := by
    intro done t rest l hsplit ht hl
    have hts : t ∈ ts := by
      rw [heq, hsplit]
      simp
    have hfol : t.Follows (lastTaken (earlier ++ t₁ :: done)) := by
      apply h (earlier ++ t₁ :: done) t rest
      rw [heq, hsplit]
      simp
    rw [hl] at hfol
    exact hfol.first (hsorted t hts) (hb t ht).1 (hb t ht).2
  -- As long as neither has its turn, `b` stays ahead of `a`.
  have hahead : ∀ done rest, between = done ++ rest →
      ∃ l, lastTaken (earlier ++ t₁ :: done) = some l ∧ Ahead (key l) (key b) (key a) := by
    intro done
    induction done using List.reverseRecOn with
    | nil =>
      intro rest _
      refine ⟨a, ?_, ahead_last fun heq => hne (hkey heq)⟩
      rw [lastTaken_snoc, ha₁]
      rfl
    | append_singleton done t ih =>
      intro rest hsplit
      rw [List.append_assoc] at hsplit
      obtain ⟨l, hl, hla⟩ := ih _ hsplit
      have ht : t ∈ between := by
        rw [hsplit]
        simp
      obtain ⟨n, hn, hcase⟩ := hfirst done t (rest ++ t₂ :: later) l (by rw [hsplit]; simp)
        (List.mem_append_left _ ht) hl
      have hnb : n ≠ b := by
        rintro rfl
        exact hpassed t ht hn
      refine ⟨n, ?_, (hcase.resolve_left hnb).advance hla⟩
      rw [← List.cons_append, ← List.append_assoc, lastTaken_snoc, hn]
      rfl
  obtain ⟨l, hl, hla⟩ := hahead between [] (List.append_nil _).symm
  obtain ⟨n, hn, hcase⟩ := hfirst between t₂ later l rfl (by simp) hl
  rw [ha₂, Option.some.injEq] at hn
  rcases hcase with rfl | hnb
  · exact hne hn.symm
  · exact hnb.asymm (hn ▸ hla)

end Sorted

end Kaku
