-- SUMMARY: The environment as a map: what a call of `setenv` makes, and what `getenv` finds after any calls.
import Kaku.Lib.Keyed
import Kaku.Lib.Run
import Kaku.User.Environ

/-!
# The environment as a map

A call of `setenv` that succeeds puts its entry into the list of entries, where no other entry
keeps the name. As long as the names are distinct the list is a map, whichever entry a lookup
finds first.
-/

namespace Kaku

variable {o l : Objects} {p q name value : Ptr} {n v x : List UInt8} {es : List (List UInt8)}
  {cells : List (Option (Option Ptr))} {ps : List Ptr} {size : Nat} {replace : Int}

/-! ## What `setenv` makes -/

/-- The new entry is written if there is room for it. -/
theorem writeEntry_eq (hn : o.Str name n) (hv : o.Str value v) :
    writeEntry name value n.length v.length o.length (o.mallocChars size) =
      if n.length + 1 + v.length + 1 ≤ size then
        .ok (o ++ [.chars (filled (n ++ equals :: v ++ [0]) size)])
      else .error .wild := by
  have hname := @Objects.copyChars_last o name n [] 0 n.length size hn (Nat.zero_add _)
  have hequals := @Objects.putChar_last o n size equals
  have hvalue := @Objects.copyChars_last o value v (n ++ [equals]) 0 v.length size hv (Nat.zero_add _)
  have hzero := @Objects.putChar_last o (n ++ [equals] ++ v) size 0
  rw [List.length_nil, Nat.zero_add, List.nil_append, List.drop_zero] at hname
  rw [List.length_append, List.length_singleton, List.drop_zero] at hvalue
  rw [List.length_append, List.length_append, List.length_singleton] at hzero
  have hstart : o.mallocChars size = o ++ [.chars (filled [] size)] := rfl
  have hend : n ++ equals :: v ++ [0] = n ++ [equals] ++ v ++ [0] := by simp
  unfold writeEntry
  rw [hstart, hname, hend]
  by_cases hroom : n.length + 1 + v.length + 1 ≤ size
  · rw [if_pos hroom, if_pos (by omega), ok_bind]
    simp only
    rw [hequals, if_pos (by omega), ok_bind, hvalue, if_pos (by omega), ok_bind]
    simp only
    rw [hzero, if_pos (by omega)]
  · -- one of the four writes is outside of the object
    rw [if_neg hroom]
    split
    · rw [ok_bind]
      simp only
      rw [hequals]
      split
      · rw [ok_bind, hvalue]
        split
        · rw [ok_bind]
          simp only
          rw [hzero, if_neg (by omega)]
        · rfl
      · rfl
    · rfl

/-- The new array is written if there is room for it. -/
theorem writeArray_eq {environ entry : Nat} {kept : List Ptr} (hcells : o.ptrs environ = .ok cells)
    (hps : pointers cells = .ok ps) (hkept : others replace 0 ps = kept) :
    writeArray environ o.length entry ps.length replace (o ++ [.ptrs (List.replicate size none)]) =
      if kept.length + 2 ≤ size then
        .ok (o ++ [.ptrs (filled (kept.map some ++ [some ⟨entry, 0⟩] ++ [none]) size)])
      else .error .wild := by
  have hkeep := @keepLoop_last o cells ps 0 ps.length size replace environ [] kept hcells hps
    (Nat.zero_add _) hkept
  have hentry := @Objects.putPtr_last o size (kept.map some) (some ⟨entry, 0⟩)
  have hnull := @Objects.putPtr_last o size (kept.map some ++ [some ⟨entry, 0⟩]) none
  rw [List.length_nil, Nat.zero_add, List.nil_append] at hkeep
  rw [List.length_map] at hentry
  rw [List.length_append, List.length_map, List.length_singleton] at hnull
  have hstart : o ++ [Object.ptrs (List.replicate size none)] = o ++ [.ptrs (filled [] size)] := rfl
  unfold writeArray
  rw [hstart, hkeep]
  by_cases hroom : kept.length + 2 ≤ size
  · rw [if_pos hroom, if_pos (by omega), ok_bind]
    simp only
    rw [hentry, if_pos (by omega), ok_bind, hnull, if_pos (by omega)]
  · rw [if_neg hroom]
    split
    · rw [ok_bind]
      simp only
      rw [hentry]
      split
      · rw [ok_bind, hnull, if_neg (by omega)]
      · rfl
    · rfl

/-! ## `setenv` on a map -/

variable {e e' : Env} {m m' : Mallocs} {r : Int}

/-- The entries that are taken over are those with another name. -/
theorem countLoop_kept (hn : o.Str q n) (heq : equals ∉ n) (hes : EnvEntries es)
    (hps : pointers cells = .ok ps) (hstr : List.Forall₂ o.Str ps es) :
    ∃ replace kept, countLoop o q n.length cells 0 0 (-1) = .ok (ps.length, replace) ∧
      others replace 0 ps = kept ∧
      List.Forall₂ o.Str kept (es.filter fun x => nameOf x ≠ n) ∧
      (if 0 ≤ replace then ps.length else ps.length + 1) + 1 = kept.length + 2 := by
  obtain ⟨replace, hcount, hcase⟩ :=
    @countLoop_spec o q n es cells ps 0 0 (-1) hn heq hes.form hps hstr
  rw [Nat.zero_add] at hcount
  refine ⟨replace, others replace 0 ps, hcount, rfl, ?_⟩
  rcases hcase with ⟨rfl, hnone⟩ | ⟨j, x, hj, rfl, rfl⟩
  · rw [Keyed.filter_of_forall hnone, others_of_lt (by decide)]
    exact ⟨hstr, by rw [if_neg (by decide)]⟩
  · have herase : others ((0 + j : Nat) : Int) 0 ps = ps.eraseIdx j := others_eq_eraseIdx
    have hlt : j < ps.length := by
      rw [hstr.length_eq]
      exact (List.getElem?_eq_some_iff.1 hj).1
    have hkept : List.Forall₂ o.Str (others ((0 + j : Nat) : Int) 0 ps)
        (others ((0 + j : Nat) : Int) 0 es) := forall₂_others hstr
    rw [Keyed.filter_eq_eraseIdx hes.names hj, herase]
    rw [others_eq_eraseIdx, others_eq_eraseIdx] at hkept
    refine ⟨hkept, ?_⟩
    rw [if_pos (by omega), List.length_eraseIdx_of_lt hlt]
    omega

theorem forall₂_append (h : List.Forall₂ o.Str ps es) : List.Forall₂ (Objects.Str (o ++ l)) ps es :=
  h.imp fun _ _ hx => hx.append

/-- What `setenv` does: it fails where `malloc` has no memory, and runs out of a new object
where the size of that object does not fit into 32 bits. -/
theorem setenv_eq (he : e.Holds es) (hes : EnvEntries es) (hn : e.objects.Str name n)
    (hv : e.objects.Str value v) (heq : equals ∉ n) :
    let size := addr32 (n.length + 1 + v.length + 1)
    let o := e.objects ++ [.chars (filled (n ++ equals :: v ++ [0]) size)]
    ∃ kept, List.Forall₂ (Objects.Str o) kept (es.filter fun x => nameOf x ≠ n) ∧
      e.setenv name value m =
        let count := addr32 ((kept.length + 2) * 4) / 4
        let array := filled (kept.map some ++ [some ⟨e.objects.length, 0⟩] ++ [none]) count
        if m 0 then
          if n.length + 1 + v.length + 1 ≤ size then
            if m 1 then
              if kept.length + 2 ≤ count then .ok (0, ⟨o ++ [.ptrs array], o.length⟩, m.next.next)
              else .error .wild
            else .ok (-1, { e with objects := Objects.free o e.objects.length }, m.next.next)
          else .error .wild
        else .ok (-1, e, m.next) := by
  obtain ⟨cells, ps, hcells, hps, hstr⟩ := he
  intro size o
  have hcells' : Objects.ptrs o e.environ = .ok cells := Objects.ptrs_append hcells
  obtain ⟨replace, kept, hcount, hkept, hrest, hnew⟩ :=
    @countLoop_kept o _ _ _ _ _ hn.append heq hes hps (forall₂_append hstr)
  have harray := @writeArray_eq o cells ps (addr32 ((kept.length + 2) * 4) / 4) replace
    e.environ e.objects.length kept hcells' hps hkept
  have hentry : writeEntry name value n.length v.length e.objects.length
      (e.objects.mallocChars size) =
        if n.length + 1 + v.length + 1 ≤ size then .ok o else .error .wild := writeEntry_eq hn hv
  refine ⟨kept, hrest, ?_⟩
  unfold Env.setenv
  rw [hn.strlen, hv.strlen, ok_bind, ok_bind]
  simp only
  split
  · rw [hentry]
    split
    · rw [ok_bind, hcells', ok_bind, hcount, ok_bind]
      simp only
      rw [hnew, Objects.mallocPtrs]
      split
      · rw [harray]
        split <;> rfl
      · rfl
    · rfl
  · rfl

theorem pointers_filled : pointers (filled (ps.map some ++ [none]) size) = .ok ps := by
  unfold filled written
  rw [List.map_append, List.append_assoc]
  generalize List.drop _ _ = rest
  induction ps with
  | nil => rfl
  | cons p ps ih =>
    rw [List.map_cons, List.map_cons, List.cons_append, pointers, ih]
    rfl

/-- The object is filled with the new entry. -/
theorem entry_str (size : Nat) (hn : o.Str name n) (hv : o.Str value v) :
    Objects.Str (o ++ [.chars (filled (n ++ equals :: v ++ [0]) size)]) ⟨o.length, 0⟩
      (n ++ equals :: v) := by
  refine ⟨?_, _, Objects.chars_last, List.prefix_append _ _⟩
  rw [List.mem_append, List.mem_cons, not_or, not_or]
  exact ⟨hn.1, by decide, hv.1⟩

/-- A call that succeeds puts the new entry into the map. -/
theorem Env.Holds.setenv (he : e.Holds es) (hes : EnvEntries es) (hn : e.objects.Str name n)
    (hv : e.objects.Str value v) (heq : equals ∉ n)
    (hrun : e.setenv name value m = .ok (0, e', m')) :
    e'.Holds (Keyed.put nameOf es (n ++ equals :: v)) ∧ e.objects <+: e'.objects := by
  obtain ⟨kept, hkept, hsetenv⟩ := setenv_eq he hes hn hv heq
  rw [hsetenv] at hrun
  simp only at hrun
  split at hrun
  · split at hrun
    · split at hrun
      · split at hrun
        · rename_i hroom _ hspace
          cases hrun
          refine ⟨⟨_, kept ++ [⟨e.objects.length, 0⟩], Objects.ptrs_last, ?_, ?_⟩, by simp⟩
          · rw [← pointers_filled, List.map_append, List.map_singleton]
          · have hentry := entry_str (addr32 (n.length + 1 + v.length + 1)) hn hv
            unfold Keyed.put
            rw [nameOf_append heq]
            exact forall₂_append (List.rel_append hkept (.cons hentry .nil))
        · cases hrun
      · cases hrun
    · cases hrun
  · cases hrun

/-- A call returns where the sizes of the new objects fit into 32 bits, and succeeds if `malloc`
has memory. -/
theorem Env.Holds.setenv_returns (he : e.Holds es) (hes : EnvEntries es)
    (hn : e.objects.Str name n) (hv : e.objects.Str value v) (heq : equals ∉ n)
    (hsize : n.length + v.length + 2 < 2 ^ 32) (hcount : (es.length + 2) * 4 < 2 ^ 32) :
    ∃ r e' m', e.setenv name value m = .ok (r, e', m') ∧ (r = -1 ∨ r = 0) ∧ (m.Granting → r = 0) := by
  obtain ⟨kept, hkept, hsetenv⟩ := setenv_eq he hes hn hv heq
  have hle : kept.length ≤ es.length := by
    rw [hkept.length_eq]
    exact List.length_filter_le _ _
  have hfits : addr32 (n.length + 1 + v.length + 1) = n.length + 1 + v.length + 1 :=
    Nat.mod_eq_of_lt (by omega)
  have hfits' : addr32 ((kept.length + 2) * 4) = (kept.length + 2) * 4 :=
    Nat.mod_eq_of_lt (by omega)
  rw [hsetenv]
  simp only
  split
  · rw [hfits, if_pos le_rfl]
    split
    · rw [hfits', Nat.mul_div_cancel _ (by decide), if_pos le_rfl]
      exact ⟨_, _, _, rfl, .inr rfl, fun _ => rfl⟩
    · exact ⟨_, _, _, rfl, .inl rfl, fun hm => absurd (hm 1) ‹_›⟩
  · exact ⟨_, _, _, rfl, .inl rfl, fun hm => absurd (hm 0) ‹_›⟩

/-! ## Runs -/

inductive Env.Step : Env → Option (List UInt8 × List UInt8) → Env → Prop
  /-- A call of `setenv` that succeeds. -/
  | setenv {e e' : Env} {name value : Ptr} {n v : List UInt8} {m m' : Mallocs}
      (hn : e.objects.Str name n) (hv : e.objects.Str value v) (heq : equals ∉ n)
      (hrun : e.setenv name value m = .ok (0, e', m')) : Env.Step e (some (n, v)) e'
  /-- What the program does with its other objects. -/
  | other {e : Env} {o : Objects} (hkeep : ∀ es, e.Holds es → Env.Holds ⟨o, e.environ⟩ es) :
      Env.Step e none ⟨o, e.environ⟩

/-- The value of the last call for the name. -/
def lastSet (calls : List (Option (List UInt8 × List UInt8))) (n : List UInt8) :
    Option (List UInt8) :=
  calls.reverse.findSome? fun call => call.bind fun c => if c.1 = n then some c.2 else none

theorem lastSet_append (calls : List (Option (List UInt8 × List UInt8)))
    (call : Option (List UInt8 × List UInt8)) (n : List UInt8) :
    lastSet (calls ++ [call]) n =
      (call.bind fun c => if c.1 = n then some c.2 else none).or (lastSet calls n) := by
  unfold lastSet
  rw [List.reverse_append, List.reverse_singleton, List.singleton_append, List.findSome?_cons]
  cases call.bind fun c => if c.1 = n then some c.2 else none <;> rfl

/-- What is put in is found under its name, and nothing else changes. -/
theorem valueIn_put (heq : equals ∉ n) :
    valueIn (Keyed.put nameOf es (n ++ equals :: v)) =
      Function.update (valueIn es) n (some v) := by
  funext k
  unfold valueIn
  rw [Keyed.lookup_put, nameOf_append heq]
  by_cases hk : k = n
  · subst hk
    rw [Function.update_self, Function.update_self, Option.map_some, valueOf_append heq]
  · rw [Function.update_of_ne hk, Function.update_of_ne hk]

theorem EnvEntries.put (hes : EnvEntries es) : EnvEntries (Keyed.put nameOf es (n ++ equals :: v)) where
  form := by
    intro x hx
    rcases List.mem_append.1 hx with hold | hnew
    · exact hes.form x (List.mem_filter.1 hold).1
    · rw [List.mem_singleton.1 hnew]
      simp
  names := Keyed.nodup_put hes.names

/-- `getenv` finds what the map has. -/
theorem Env.Holds.getenv (he : e.Holds es) (hes : EnvEntries es) (hn : e.objects.Str name n)
    (heq : equals ∉ n) :
    ∃ r, e.getenv name = .ok r ∧ Option.Rel e.objects.Str r (valueIn es n) := by
  obtain ⟨cells, ps, hcells, hps, hstr⟩ := he
  unfold Env.getenv
  rw [hn.strlen, hcells, ok_bind, ok_bind]
  exact getenvLoop_spec hn heq hes.form hps hstr

/-- The entries after one step. -/
theorem Env.Step.holds {call : Option (List UInt8 × List UInt8)} (hstep : Env.Step e call e')
    (he : e.Holds es) (hes : EnvEntries es) :
    ∃ es', e'.Holds es' ∧ EnvEntries es' ∧
      ∀ k, valueIn es' k =
        (call.bind fun c => if c.1 = k then some c.2 else none).or (valueIn es k) := by
  cases hstep with
  | setenv hn hv heq hrun =>
    refine ⟨_, (he.setenv hes hn hv heq hrun).1, hes.put, fun k => ?_⟩
    rw [valueIn_put heq, Option.bind_some]
    split
    · rename_i hk
      rw [← hk, Function.update_self, Option.some_or]
    · rename_i hk
      rw [Function.update_of_ne (Ne.symm hk), Option.none_or]
  | other hkeep => exact ⟨es, hkeep es he, hes, fun k => rfl⟩

/-- In every run the entries keep distinct names and a null pointer behind them, and `getenv`
has, for each name without `=`, the value of the last call of `setenv` for it, or the one that
the environment had at the start. -/
theorem environ_map {s₀ s : Env} {calls : List (Option (List UInt8 × List UInt8))}
    (hstart : s₀.Holds es) (hform : EnvEntries es) (hrun : Run Env.Step s₀ calls s) :
    ∃ es', s.Holds es' ∧ EnvEntries es' ∧
      ∀ p k, s.objects.Str p k → equals ∉ k → ∃ r, s.getenv p = .ok r ∧
        Option.Rel s.objects.Str r ((lastSet calls k).or (valueIn es k)) := by
  have hall : ∃ es', s.Holds es' ∧ EnvEntries es' ∧
      ∀ k, valueIn es' k = (lastSet calls k).or (valueIn es k) := by
    induction hrun with
    | refl => exact ⟨es, hstart, hform, fun k => rfl⟩
    | snoc _ hstep ih =>
      obtain ⟨es₁, hheld, hentries, hvalue⟩ := ih
      obtain ⟨es₂, hheld', hentries', hvalue'⟩ := hstep.holds hheld hentries
      refine ⟨es₂, hheld', hentries', fun k => ?_⟩
      rw [hvalue', hvalue, lastSet_append, Option.or_assoc]
  obtain ⟨es', hheld, hentries, hvalue⟩ := hall
  refine ⟨es', hheld, hentries, fun p k hp hk => ?_⟩
  rw [← hvalue]
  exact hheld.getenv hentries hp hk

/-- An object that is a string. -/
def strObject (s : List UInt8) : Object := .chars ((s ++ [0]).map some)

theorem str_strObject {s : List UInt8} {b : Nat} (hb : o[b]? = some (strObject s)) (hzero : 0 ∉ s) :
    o.Str ⟨b, 0⟩ s :=
  ⟨hzero, (s ++ [0]).map some, by rw [Objects.chars, hb]; rfl, List.prefix_rfl⟩

/-- The entry `A=B`, and the strings `A` and `AA`. -/
def oneEntry : Env where
  objects := [.ptrs [some (some ⟨1, 0⟩), some none], strObject [0x41, equals, 0x42],
    strObject [0x41], strObject [0x41, 0x41]]
  environ := 0

theorem oneEntry_holds : oneEntry.Holds [[0x41, equals, 0x42]] :=
  ⟨_, _, rfl, rfl, .cons (str_strObject rfl (by decide)) .nil⟩

/-- After `setenv("AA", getenv("A"))` the value of `A` is still `B`. -/
theorem environ_map_two :
    ∃ e m, oneEntry.setenv ⟨3, 0⟩ ⟨1, 2⟩ (fun _ => true) = .ok (0, e, m) ∧
      ∃ r, e.getenv ⟨2, 0⟩ = .ok r ∧ Option.Rel e.objects.Str r (some [0x42]) := by
  have hname : oneEntry.objects.Str ⟨3, 0⟩ [0x41, 0x41] := str_strObject rfl (by decide)
  have hvalue : oneEntry.objects.Str ⟨1, 2⟩ [0x42] :=
    Objects.Str.drop (i := 2) (str_strObject (b := 1) (s := [0x41, equals, 0x42]) rfl (by decide))
      (by decide)
  obtain ⟨e, m, hrun⟩ : ∃ e m, oneEntry.setenv ⟨3, 0⟩ ⟨1, 2⟩ (fun _ => true) = .ok (0, e, m) :=
    ⟨_, _, rfl⟩
  have hstep : Env.Step oneEntry (some ([0x41, 0x41], [0x42])) e :=
    .setenv hname hvalue (by decide) hrun
  have hstr : e.objects.Str ⟨2, 0⟩ [0x41] := by
    cases hrun
    exact str_strObject rfl (by decide)
  obtain ⟨es, -, -, hmap⟩ := environ_map oneEntry_holds ⟨by simp [equals], by simp⟩ (.single hstep)
  exact ⟨e, m, hrun, hmap ⟨2, 0⟩ [0x41] hstr (by decide)⟩

/-- `setenv("A", "B=C")` changes what `getenv("A=B")` finds. -/
theorem environ_not_map :
    let e : Env := ⟨[.ptrs [some none], strObject [0x41], strObject [0x42, equals, 0x43],
      strObject [0x41, equals, 0x42]], 0⟩
    e.Holds [] ∧ EnvEntries [] ∧ e.getenv ⟨3, 0⟩ = .ok none ∧
      ∃ e' m, e.setenv ⟨1, 0⟩ ⟨2, 0⟩ (fun _ => true) = .ok (0, e', m) ∧
        e'.getenv ⟨3, 0⟩ = .ok (some ⟨4, 4⟩) :=
  ⟨⟨_, _, rfl, rfl, .nil⟩, ⟨by simp, by simp⟩, rfl, _, _, rfl, rfl⟩

end Kaku
