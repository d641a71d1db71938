-- SUMMARY: Formatted output of user programs: `vsnprintf`, the expansion of a format, and when the one is the other.
import Kaku.User.Numeral

/-!
# `vsnprintf`

`user_fs/lib/stdio.h`. The format is what its object has from the pointer on. An argument is
a word or a pointer to a string.
-/

namespace Kaku

inductive Arg
  | word (w : UInt32)
  | str (s : List UInt8)
  deriving DecidableEq

/-- `'%'`, `'s'`, `'d'`, `'x'` and `'c'`. -/
def percent : UInt8 := 0x25
def charS : UInt8 := 0x73
def charD : UInt8 := 0x64
def charX : UInt8 := 0x78
def charC : UInt8 := 0x63

/-! ## The code -/

/-- The loop `while (*s && i < size - 1) buf[i++] = *s++;`. -/
def emit (limit : Nat) : (s : List (Option UInt8)) → (i : Nat) → (buf : List (Option UInt8)) →
    K (Nat × List (Option UInt8))
  | some c :: s, i, buf =>
    if c ≠ 0 ∧ i < limit then do
      let buf ← putCell buf i c
      emit limit s (i + 1) buf
    else .ok (i, buf)
  | _, _, _ => .error .wild

/-- `if (s)`, and the loop. -/
def emitBlock (limit : Nat) (s : Option (List (Option UInt8))) (i : Nat) (buf : List (Option UInt8)) :
    K (Nat × List (Option UInt8)) :=
  match s with
  | some s => emit limit s i buf
  | none => .ok (i, buf)

/-- The branches for the character behind `%`. -/
def directive (limit : Nat) (d : UInt8) (args : List Arg) (i : Nat) (buf : List (Option UInt8))
    (m : Mallocs) : K (List Arg × Nat × List (Option UInt8) × Mallocs) :=
  if d = charS then
    match args with
    | .str s :: args => do
      let (i, buf) ← emit limit ((s ++ [0]).map some) i buf
      pure (args, i, buf, m)
    | _ => .error .wild
  else if d = charD then
    match args with
    | .word w :: args => do
      let (s, m) ← itoa w.toInt32 m
      let (i, buf) ← emitBlock limit s i buf
      pure (args, i, buf, m)
    | _ => .error .wild
  else if d = charX then
    match args with
    | .word w :: args => do
      let (s, m) ← itoaHex w m
      let (i, buf) ← emitBlock limit s i buf
      pure (args, i, buf, m)
    | _ => .error .wild
  else if d = charC then
    match args with
    | .word w :: args => do
      let buf ← putCell buf i w.toUInt8
      pure (args, i + 1, buf, m)
    | _ => .error .wild
  else .ok (args, i, buf, m)

/-- The loop over the format. -/
def vsnprintfLoop (limit : Nat) : (fmt : List UInt8) → List Arg → (i : Nat) →
    (buf : List (Option UInt8)) → Mallocs → K (Nat × List (Option UInt8))
  | [], _, _, _, _ => .error .wild
  | c :: fmt, args, i, buf, m =>
    if c ≠ 0 ∧ i < limit then
      if c = percent then
        match fmt with
        | [] => .error .wild
        | d :: fmt => do
          let (args, i, buf, m) ← directive limit d args i buf m
          vsnprintfLoop limit fmt args i buf m
      else do
        let buf ← putCell buf i c
        vsnprintfLoop limit fmt args (i + 1) buf m
    else .ok (i, buf)

def vsnprintf (buf : List (Option UInt8)) (size : UInt32) (fmt : List UInt8) (args : List Arg)
    (m : Mallocs) : K (Nat × List (Option UInt8)) := do
  let (i, buf) ← vsnprintfLoop (size - 1).toNat fmt args 0 buf m
  let buf ← putCell buf i 0
  pure (i, buf)

/-! ## The expansion -/

/-- What a directive stands for, with the argument that it takes. -/
inductive Directive : (d : UInt8) → (arg : Arg) → (e : List UInt8) → Prop
  | str {s : List UInt8} (hs : 0 ∉ s) : Directive charS (.str s) s
  | dec (w : UInt32) : Directive charD (.word w) (decimal w.toInt32.toInt)
  | hex (w : UInt32) : Directive charX (.word w) (hexadecimal w.toNat)
  | char (w : UInt32) : Directive charC (.word w) [w.toUInt8]

/-- The arguments match the format, and the format expands to the characters. -/
inductive Expands : (fmt : List UInt8) → List Arg → (e : List UInt8) → Prop
  | nil (args : List Arg) : Expands [] args []
  | char {c : UInt8} {fmt : List UInt8} {args : List Arg} {e : List UInt8} (hc : c ≠ percent)
      (hrest : Expands fmt args e) : Expands (c :: fmt) args (c :: e)
  | directive {d : UInt8} {fmt : List UInt8} {arg : Arg} {args : List Arg} {s e : List UInt8}
      (hd : Directive d arg s) (hrest : Expands fmt args e) :
      Expands (percent :: d :: fmt) (arg :: args) (s ++ e)
  | drop {d : UInt8} {fmt : List UInt8} {args : List Arg} {e : List UInt8}
      (hd : d ∉ [charS, charD, charX, charC]) (hrest : Expands fmt args e) :
      Expands (percent :: d :: fmt) args e
  | unfinished (args : List Arg) : Expands [percent] args []

/-- The format ends in a `%` that no character follows. -/
def endsOpen : List UInt8 → Bool
  | [] => false
  | c :: fmt =>
    if c = percent then
      match fmt with
      | [] => true
      | _ :: fmt => endsOpen fmt
    else endsOpen fmt

variable {limit : Nat} {fmt s done e : List UInt8} {buf rest : List (Option UInt8)} {d : UInt8}
  {arg : Arg} {args : List Arg} {m : Mallocs} {size : UInt32}

/-! ## Characters in the buffer -/

/-- What has been cut off already does not come back. -/
theorem take_append_take {α : Type} (l k : List α) (n : Nat) :
    (l.take n ++ k).take n = (l ++ k).take n := by
  rw [List.take_append, List.take_append, List.take_take, Nat.min_self, List.length_take]
  congr 2
  omega

/-- A string is put behind what is there, as far as it goes. -/
theorem emit_spec (hlimit : limit < buf.length) (hzero : 0 ∉ s) (hdone : done.length ≤ limit) :
    emit limit ((s ++ [0]).map some ++ rest) done.length (written done buf) =
      .ok (((done ++ s).take limit).length, written ((done ++ s).take limit) buf) := by
  induction s generalizing done with
  | nil =>
    rw [List.append_nil, List.take_of_length_le hdone]
    rfl
  | cons c s ih =>
    rw [List.mem_cons, not_or] at hzero
    rw [List.cons_append, List.map_cons, List.cons_append]
    unfold emit
    rcases Nat.lt_or_eq_of_le hdone with hroom | hfull
    · have hnext := @ih (done ++ [c]) hzero.2 (by simpa using hroom)
      rw [List.length_append, List.length_singleton, List.append_assoc,
        List.singleton_append] at hnext
      rw [if_pos ⟨Ne.symm hzero.1, hroom⟩, putCell_written, if_pos (by omega), ok_bind]
      exact hnext
    · rw [if_neg fun h => absurd h.2 (by omega), ← hfull, List.take_left]

theorem directive_spec (hd : Directive d arg s) (hm : m.Granting) (hlimit : limit < buf.length)
    (hdone : done.length < limit) :
    ∃ m', directive limit d (arg :: args) done.length (written done buf) m =
        .ok (args, ((done ++ s).take limit).length, written ((done ++ s).take limit) buf, m') ∧
      m'.Granting := by
  unfold directive
  cases hd with
  | str hs =>
    refine ⟨m, ?_, hm⟩
    have hemit := @emit_spec limit s done buf [] hlimit hs hdone.le
    rw [List.append_nil] at hemit
    simp only [if_true, hemit, ok_bind]
    rfl
  | dec w =>
    obtain ⟨rest, hitoa⟩ := itoa_spec w.toInt32 (hm 0)
    refine ⟨m.next, ?_, hm.next⟩
    have hemit := @emit_spec limit _ done buf rest hlimit (zero_not_mem_decimal w.toInt32.toInt) hdone.le
    have hne : charD ≠ charS := by decide
    simp only [if_neg hne, if_true, hitoa, ok_bind, emitBlock, hemit]
    rfl
  | hex w =>
    obtain ⟨rest, hitoa⟩ := itoaHex_spec w (hm 0)
    refine ⟨m.next, ?_, hm.next⟩
    have hemit := @emit_spec limit _ done buf rest hlimit (zero_not_mem_hexadecimal w.toNat) hdone.le
    have hneS : charX ≠ charS := by decide
    have hneD : charX ≠ charD := by decide
    simp only [if_neg hneS, if_neg hneD, if_true, hitoa, ok_bind, emitBlock, hemit]
    rfl
  | char w =>
    refine ⟨m, ?_, hm⟩
    have hall : (done ++ [w.toUInt8]).take limit = done ++ [w.toUInt8] :=
      List.take_of_length_le (by simpa using hdone)
    have hneS : charC ≠ charS := by decide
    have hneD : charC ≠ charD := by decide
    have hneX : charC ≠ charX := by decide
    have hput := @putCell_written _ done buf w.toUInt8
    rw [if_pos (by omega)] at hput
    simp only [if_neg hneS, if_neg hneD, if_neg hneX, if_true, hput, ok_bind, hall,
      List.length_append, List.length_singleton]
    rfl

/-- A directive of another kind takes no argument. -/
theorem directive_drop (hd : d ∉ [charS, charD, charX, charC]) {i : Nat} :
    directive limit d args i buf m = .ok (args, i, buf, m) := by
  simp only [List.mem_cons, List.not_mem_nil, or_false, not_or] at hd
  unfold directive
  rw [if_neg hd.1, if_neg hd.2.1, if_neg hd.2.2.1, if_neg hd.2.2.2]

/-! ## The format -/

/-- Where the buffer is full the loop ends. -/
theorem vsnprintfLoop_full {i : Nat} (hfull : limit ≤ i) :
    vsnprintfLoop limit (fmt ++ [0]) args i buf m = .ok (i, buf) := by
  cases fmt with
  | nil => exact if_neg fun h => h.1 rfl
  | cons c fmt =>
    rw [List.cons_append, vsnprintfLoop.eq_def]
    exact if_neg fun h => absurd h.2 (by omega)

theorem vsnprintfLoop_directive {i : Nat} (hroom : i < limit) :
    vsnprintfLoop limit (percent :: d :: fmt) args i buf m = (do
      let (args, i, buf, m) ← directive limit d args i buf m
      vsnprintfLoop limit fmt args i buf m) := by
  rw [vsnprintfLoop.eq_def]
  exact (if_pos ⟨by decide, hroom⟩).trans (if_pos rfl)

theorem vsnprintfLoop_char {c : UInt8} {i : Nat} (hc : c ≠ percent) (hzero : c ≠ 0)
    (hroom : i < limit) :
    vsnprintfLoop limit (c :: fmt) args i buf m = (do
      let buf ← putCell buf i c
      vsnprintfLoop limit fmt args (i + 1) buf m) := by
  rw [vsnprintfLoop.eq_def]
  exact (if_pos ⟨hzero, hroom⟩).trans (if_neg hc)

/-- The loop puts the expansion behind what is there, as far as it goes, or runs behind the zero
byte of the format. -/
theorem vsnprintfLoop_eq (h : Expands fmt args e) (hzero : 0 ∉ fmt) (hm : m.Granting)
    (hlimit : limit < buf.length) (hdone : done.length ≤ limit) :
    vsnprintfLoop limit (fmt ++ [0]) args done.length (written done buf) m =
      if endsOpen fmt ∧ done.length + e.length < limit then .error .wild
      else .ok (((done ++ e).take limit).length, written ((done ++ e).take limit) buf) := by
  induction h generalizing done m with
  | nil args =>
    rw [if_neg (by simp [endsOpen]), List.append_nil, List.take_of_length_le hdone]
    exact if_neg fun h => h.1 rfl
  | @char c fmt args e hc hrest ih =>
    rw [List.mem_cons, not_or] at hzero
    have hopen : endsOpen (c :: fmt) = endsOpen fmt := by
      rw [endsOpen.eq_def]
      exact if_neg hc
    rw [hopen, List.length_cons]
    rcases Nat.lt_or_eq_of_le hdone with hroom | hfull
    · have hnext := @ih (done ++ [c]) m hzero.2 hm (by simpa using hroom)
      rw [List.length_append, List.length_singleton, List.append_assoc, List.singleton_append,
        Nat.add_assoc, Nat.add_comm 1] at hnext
      rw [List.cons_append, vsnprintfLoop_char hc (Ne.symm hzero.1) hroom, putCell_written,
        if_pos (by omega), ok_bind, hnext]
    · rw [vsnprintfLoop_full hfull.ge, if_neg fun h => absurd h.2 (by omega), ← hfull, List.take_left]
  | @directive d fmt arg args s e hd hrest ih =>
    rw [List.mem_cons, List.mem_cons, not_or, not_or] at hzero
    have hopen : endsOpen (percent :: d :: fmt) = endsOpen fmt := rfl
    rw [hopen, List.length_append]
    rcases Nat.lt_or_eq_of_le hdone with hroom | hfull
    · obtain ⟨m', hdir, hm'⟩ := directive_spec hd hm hlimit hroom
      have hnext := @ih ((done ++ s).take limit) m' hzero.2.2 hm' (List.length_take_le _ _)
      rw [take_append_take, List.append_assoc] at hnext
      -- what is cut off here is not cut off again behind the rest
      have hlen : ((done ++ s).take limit).length + e.length < limit ↔
          done.length + (s.length + e.length) < limit := by
        rw [List.length_take, List.length_append]
        omega
      rw [List.cons_append, List.cons_append, vsnprintfLoop_directive hroom, hdir, ok_bind]
      simp only [hnext, hlen]
    · rw [vsnprintfLoop_full hfull.ge, if_neg fun h => absurd h.2 (by omega), ← hfull, List.take_left]
  | @drop d fmt args e hd hrest ih =>
    rw [List.mem_cons, List.mem_cons, not_or, not_or] at hzero
    have hopen : endsOpen (percent :: d :: fmt) = endsOpen fmt := rfl
    rw [hopen]
    rcases Nat.lt_or_eq_of_le hdone with hroom | hfull
    · rw [List.cons_append, List.cons_append, vsnprintfLoop_directive hroom, directive_drop hd,
        ok_bind]
      exact ih hzero.2.2 hm hdone
    · rw [vsnprintfLoop_full hfull.ge, if_neg fun h => absurd h.2 (by omega), ← hfull, List.take_left]
  | unfinished args =>
    have hpercent : (0 : UInt8) ∉ [charS, charD, charX, charC] := by decide
    have hopen : endsOpen [percent] = true := rfl
    rw [hopen, List.length_nil, Nat.add_zero, List.append_nil, List.take_of_length_le hdone]
    rcases Nat.lt_or_eq_of_le hdone with hroom | hfull
    · -- the zero byte is taken for the character behind `%`
      rw [if_pos ⟨rfl, hroom⟩, List.singleton_append, vsnprintfLoop_directive hroom,
        directive_drop hpercent]
      rfl
    · rw [vsnprintfLoop_full hfull.ge, if_neg fun h => absurd h.2 (by omega)]

/-- `vsnprintf` is bounded and exact unless the format ends in an open `%` that is reached before
the buffer is full. -/
theorem vsnprintf_iff (hsize : 1 ≤ size.toNat) (hbuf : size.toNat ≤ buf.length) (hzero : 0 ∉ fmt)
    (hexpands : Expands fmt args e) (hm : m.Granting) :
    vsnprintf buf size (fmt ++ [0]) args m =
        .ok (min (size.toNat - 1) e.length, (e.take (size.toNat - 1) ++ [0]).map some ++
          buf.drop (min (size.toNat - 1) e.length + 1)) ↔
      ¬ (endsOpen fmt ∧ e.length < size.toNat - 1) := by
  have hlimit : (size - 1).toNat = size.toNat - 1 := UInt32.toNat_sub_of_le size 1 hsize
  have hloop := @vsnprintfLoop_eq (size.toNat - 1) fmt [] e buf args m hexpands hzero hm (by omega) (Nat.zero_le _)
  rw [List.length_nil, written_nil, List.nil_append, Nat.zero_add] at hloop
  unfold vsnprintf
  rw [hlimit, hloop]
  split
  · rename_i hopen
    exact ⟨fun h => (nomatch h), fun h => absurd hopen h⟩
  · rename_i hopen
    refine ⟨fun _ => hopen, fun _ => ?_⟩
    rw [ok_bind]
    simp only
    have hle : (e.take (size.toNat - 1)).length ≤ size.toNat - 1 := List.length_take_le _ _
    rw [putCell_written, if_pos (by omega), ok_bind, List.length_take, written, List.length_append,
      List.length_take, List.length_singleton]
    rfl

/-- `vsnprintf(buf, 5, "a=%d", INT_MIN)`. -/
theorem vsnprintf_iff_min :
    vsnprintf (List.replicate 5 none) 5 ([0x61, 0x3D, percent, charD] ++ [0]) [.word 0x80000000]
        (fun _ => true) =
      .ok (4, [some 0x61, some 0x3D, some 0x2D, some 0x32, some 0]) := by
  have hmin : decimal (0x80000000 : UInt32).toInt32.toInt =
      [0x2D, 0x32, 0x31, 0x34, 0x37, 0x34, 0x38, 0x33, 0x36, 0x34, 0x38] := by
    have hint : (0x80000000 : UInt32).toInt32.toInt = -2147483648 := by decide
    rw [hint]
    simp [decimal, numeral, digitChar]
  have hexpands : Expands [0x61, 0x3D, percent, charD] [.word 0x80000000]
      (0x61 :: 0x3D :: (decimal (0x80000000 : UInt32).toInt32.toInt ++ [])) :=
    .char (by decide) (.char (by decide) (.directive (.dec _) (.nil [])))
  have hbuf : (5 : UInt32).toNat ≤ (List.replicate 5 (none : Option UInt8)).length := by decide
  have hexact := (vsnprintf_iff (by decide) hbuf (by decide) hexpands (fun _ => rfl)).2
    fun h => absurd h.1 (by decide)
  rw [hmin] at hexact
  exact hexact

/-- `vsnprintf(buf, 2, "%")`. -/
theorem vsnprintf_unfinished :
    Expands [percent] [] [] ∧
      vsnprintf [none, none] 2 ([percent] ++ [0]) [] (fun _ => true) = .error .wild :=
  ⟨.unfinished [], rfl⟩

end Kaku
