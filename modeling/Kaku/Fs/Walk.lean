-- SUMMARY: The loops over the records of a directory block, on blocks of any content.
import Kaku.Fs.Listing

/-!
# Walking a block of any content

The loops of `fs_ext2_list_dir` and of `fs_ext2_create_file` go from record to record by
the lengths they read. They end, and stay inside the buffer, if none of the records that
they come to is empty or ends behind the block.
-/

namespace Kaku

/-- The records that a walk over the block comes to are not empty, and their headers and
names end inside the block. -/
def Walkable (fs : Mount) (buf : Mem) (a : Nat) : Prop :=
  ∀ o, Reached (entrySize buf) fs.blockSize a o → o < fs.blockSize →
    entrySize buf o ≠ 0 ∧ o + 8 + entryNameLen buf o ≤ fs.blockSize

variable {fs : Mount} {buf : Mem} {a fuel : Nat} {last : Option Nat} {es : List Entry}

theorem Walkable.next (h : Walkable fs buf a) (ha : a < fs.blockSize) :
    Walkable fs buf (a + entrySize buf a) := fun o ho => h o (.step ha ho)

theorem Walkable.first (h : Walkable fs buf a) (ha : a < fs.blockSize) :
    entrySize buf a ≠ 0 ∧ a + 8 + entryNameLen buf a ≤ fs.blockSize := h a .refl ha

/-- Each record brings the listing closer to the end of the block. -/
theorem Walkable.listBlk (h : Walkable fs buf a) (hpos : 0 < fuel)
    (hfuel : fs.blockSize < a + fuel) : ∃ es, fs.listBlk buf fuel a = .ok es := by
  induction fuel generalizing a with
  | zero => cases hpos
  | succ fuel ih =>
    rw [Mount.listBlk]
    split_ifs with ha
    · obtain ⟨hsize, hname⟩ := h.first ha
      obtain ⟨es, hrest⟩ := ih (h.next ha) (by omega) (by omega)
      have hnameLen : a + 8 + buf.load (a + 6) 1 ≤ fs.blockSize := hname
      rw [Mount.peek_of_le (by omega), Mount.peek_of_le (by omega), Mount.peek_of_le (by omega),
        Mount.peek_of_le (by omega)]
      simp only [ok_bind, Mount.peekBytes, if_pos hnameLen]
      rw [show buf.load (a + 4) 2 = entrySize buf a from rfl, hrest]
      exact ⟨_, rfl⟩
    · exact ⟨[], rfl⟩

theorem Walkable.lastEntry (h : Walkable fs buf a) (hpos : 0 < fuel)
    (hfuel : fs.blockSize < a + fuel) : ∃ o, fs.lastEntry buf fuel a last = .ok o := by
  induction fuel generalizing a last with
  | zero => cases hpos
  | succ fuel ih =>
    rw [Mount.lastEntry]
    split_ifs with ha
    · obtain ⟨hsize, hname⟩ := h.first ha
      rw [Mount.peek_of_le (by omega), ok_bind, show buf.load (a + 4) 2 = entrySize buf a from rfl]
      exact ih (h.next ha) (by omega) (by omega)
    · exact ⟨last, rfl⟩

/-- At an empty record the listing stands still. -/
theorem listBlk_of_empty (ha : a < fs.blockSize) (hempty : entrySize buf a = 0) :
    fs.listBlk buf fuel a ≠ .ok es := by
  intro h
  induction fuel generalizing es with
  | zero => cases h
  | succ fuel ih =>
    rw [Mount.listBlk, if_pos ha] at h
    simp only [bind_eq_ok, Mount.peek_eq_ok] at h
    obtain ⟨_, -, size, ⟨-, hsize⟩, _, -, _, -, _, -, rest, hrest, -⟩ := h
    rw [← hsize, show buf.load (a + 4) 2 = entrySize buf a from rfl, hempty, Nat.add_zero] at hrest
    exact ih hrest

/-- A listing that ends has found nothing empty, and nothing that leaves the block. -/
theorem walkable_of_listBlk (h : fs.listBlk buf fuel a = .ok es) : Walkable fs buf a := by
  induction fuel generalizing a es with
  | zero => cases h
  | succ fuel ih =>
    intro o ho hlt
    rw [Mount.listBlk] at h
    split_ifs at h with ha
    · simp only [bind_eq_ok, Mount.peek_eq_ok] at h
      obtain ⟨_, ⟨-, rfl⟩, size, ⟨-, hsize⟩, nameLen, ⟨-, hnameLen⟩, _, ⟨-, rfl⟩, name, hname,
        rest, hrest, -⟩ := h
      have hwalk := ih hrest
      rw [Mount.peekBytes] at hname
      split_ifs at hname with hin
      cases ho with
      | refl =>
        refine ⟨fun hempty => ?_, by rwa [entryNameLen, hnameLen]⟩
        rw [← hsize, show buf.load (a + 4) 2 = entrySize buf a from rfl, hempty,
          Nat.add_zero] at hrest
        exact listBlk_of_empty ha hempty hrest
      | step _ hstep =>
        rw [entrySize, hsize] at hstep
        exact hwalk o hstep hlt
    · cases ho with
      | refl => exact absurd hlt ha
      | step hlt' _ => exact absurd hlt' ha

end Kaku
