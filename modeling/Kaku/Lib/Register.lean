-- SUMMARY: Registers that the steps of a run write, and that each holds what was last written to it.
import Kaku.Lib.Run

/-!
# Registers

A view of the states as a function from keys to values. If a step changes the value of the key
that it writes, and no other, a run leaves with each key what was last written to it.
-/

namespace Kaku

variable {σ ε κ α : Type*} {R : σ → ε → σ → Prop} {view : σ → κ → α}
  {writes : σ → ε → Option (κ × α)} {s t : σ} {es : List ε} {k : κ}

/-- The steps write to the view what `writes` says. -/
structure IsRegister (R : σ → ε → σ → Prop) (view : σ → κ → α)
    (writes : σ → ε → Option (κ × α)) : Prop where
  written : ∀ s e t, R s e t → ∀ k a, writes s e = some (k, a) → view t k = a
  kept : ∀ s e t, R s e t → ∀ k, (∀ a, writes s e ≠ some (k, a)) → view t k = view s k

/-- The transitions that write nothing to the key. -/
def Sparing (R : σ → ε → σ → Prop) (writes : σ → ε → Option (κ × α)) (k : κ) (s : σ) (e : ε)
    (t : σ) : Prop :=
  R s e t ∧ ∀ a, writes s e ≠ some (k, a)

/-- The run wrote the value to the key, and nothing to it afterwards. -/
def LastWritten (R : σ → ε → σ → Prop) (writes : σ → ε → Option (κ × α)) (k : κ) (a : α) (s : σ)
    (es : List ε) (t : σ) : Prop :=
  ∃ before e after u u', es = before ++ e :: after ∧ Run R s before u ∧ R u e u' ∧
    writes u e = some (k, a) ∧ Run (Sparing R writes k) u' after t

theorem LastWritten.mono {S : σ → ε → σ → Prop} {a : α} (h : LastWritten R writes k a s es t)
    (hRS : ∀ s e t, R s e t → S s e t) : LastWritten S writes k a s es t := by
  obtain ⟨before, e, after, u, u', hsplit, hfirst, hstep, hwrite, hrest⟩ := h
  exact ⟨before, e, after, u, u', hsplit, hfirst.mono hRS, hRS u e u' hstep, hwrite,
    hrest.mono fun s e t hst => ⟨hRS s e t hst.1, hst.2⟩⟩

theorem LastWritten.run {a : α} (h : LastWritten R writes k a s es t) : Run R s es t := by
  obtain ⟨before, e, after, u, u', rfl, hfirst, hstep, -, hrest⟩ := h
  exact hfirst.trans (.cons hstep (hrest.mono fun s e t hst => hst.1))

theorem LastWritten.with_invariant {I : σ → Prop} {a : α} (h : LastWritten R writes k a s es t)
    (hkept : ∀ s e t, R s e t → I s → I t) (hI : I s) :
    LastWritten (fun s e t => I s ∧ R s e t) writes k a s es t := by
  obtain ⟨before, e, after, u, u', hsplit, hfirst, hstep, hwrite, hrest⟩ := h
  have hu := hfirst.invariant hkept hI
  have hrest' := hrest.with_invariant (fun s e t hst => hkept s e t hst.1) (hkept u e u' hstep hu)
  exact ⟨before, e, after, u, u', hsplit, hfirst.with_invariant hkept hI, ⟨hu, hstep⟩, hwrite,
    hrest'.mono fun s e t hst => ⟨⟨hst.1, hst.2.1⟩, hst.2.2⟩⟩

namespace IsRegister

variable (h : IsRegister R view writes)
include h

theorem spared (hrun : Run (Sparing R writes k) s es t) : view t k = view s k :=
  hrun.invariant (I := fun u => view u k = view s k)
    (fun u e u' hstep hu => (h.kept u e u' hstep.1 k hstep.2).trans hu) rfl

/-- A key that was written in the run holds what was written to it last. -/
theorem of_lastWritten {a : α} (hlast : LastWritten R writes k a s es t) : view t k = a := by
  obtain ⟨before, e, after, u, u', -, -, hstep, hwrite, hrest⟩ := hlast
  rw [h.spared hrest, h.written u e u' hstep k a hwrite]

/-- Every run has written the value that a key holds, or has left it alone. -/
theorem last_write (hrun : Run R s es t) (k : κ) :
    Run (Sparing R writes k) s es t ∧ view t k = view s k ∨
      LastWritten R writes k (view t k) s es t := by
  induction hrun with
  | refl => exact .inl ⟨.refl s, rfl⟩
  | @snoc u t es e hrun hstep ih =>
    by_cases hwrite : ∃ a, writes u e = some (k, a)
    · obtain ⟨a, hwrite⟩ := hwrite
      refine .inr ⟨es, e, [], u, t, rfl, hrun, hstep, ?_, .refl t⟩
      rw [h.written u e t hstep k a hwrite, hwrite]
    · have hspare : ∀ a, writes u e ≠ some (k, a) := not_exists.1 hwrite
      have hsame : view t k = view u k := h.kept u e t hstep k hspare
      rcases ih with ⟨hrest, hview⟩ | ⟨before, e', after, w, w', rfl, hfirst, hwritten, heq, hrest⟩
      · exact .inl ⟨hrest.snoc ⟨hstep, hspare⟩, hsame.trans hview⟩
      · refine .inr ⟨before, e', after ++ [e], w, w', by simp, hfirst, hwritten, ?_,
          hrest.snoc ⟨hstep, hspare⟩⟩
        rw [heq, hsame]

end IsRegister

end Kaku
