-- SUMMARY: Formatted output of the kernel: `kvprintf_to`, the expansion of a format, and when the one is the other.
import Kaku.User.Printf

/-!
# `kvprintf_to`

`lib/src/print.h`. Characters go to `putchar_fn` and the newlines of the format to
`newline_fn`, and both work on a state of their own.
-/

namespace Kaku

def charNewline : UInt8 := 0x0A
def charTab : UInt8 := 0x09

/-! ## The code -/

/-- An `int` passed as a `char`. -/
def intChar (n : Int32) : UInt8 := n.toInt8.toUInt8

section

variable {σ : Type} (putcharFn : UInt8 → σ → K σ) (newlineFn : σ → K σ)

/-- `while (*s) putchar_fn(*s++);` -/
def putChars : List UInt8 → σ → K σ
  | [], s => .ok s
  | c :: cs, s => do
    let s ← putcharFn c s
    putChars cs s

/-- The branch for `%d`. -/
def putInt (n : Int32) (s : σ) : K σ := do
  let s ← if 10 ≤ n then putcharFn (intChar (0x30 + n / 10)) s else pure s
  putcharFn (intChar (0x30 + n % 10)) s

/-- The loop over the nibbles below the `j`-th. -/
def putNibbles (x : UInt32) : (j : Nat) → (started : Bool) → σ → K σ
  | 0, _, s => .ok s
  | j + 1, started, s =>
    let nibble := (x >>> UInt32.ofNat (j * 4)) &&& 0xF
    if nibble ≠ 0 ∨ started then do
      let s ← putcharFn (hexDigits.getD nibble.toNat 0) s
      putNibbles x j true s
    else putNibbles x j started s

/-- The branch for `%x`. -/
def putHex (x : UInt32) (s : σ) : K σ := do
  let s ← putcharFn 0x30 s
  let s ← putcharFn charX s
  if x = 0 then putcharFn 0x30 s else putNibbles putcharFn x 8 false s

/-- A character behind `%` that is no directive is printed in the next round. -/
def kvprintfTo : (str : List UInt8) → List Arg → σ → K σ
  | [], _, s => .ok s
  | c :: str, args, s =>
    if c = percent then
      match str with
      | [] => putcharFn c s
      | d :: rest =>
        if d = charS then
          match args with
          | .str t :: args => do
            let s ← putChars putcharFn t s
            kvprintfTo rest args s
          | _ => .error .wild
        else if d = charD then
          match args with
          | .word w :: args => do
            let s ← putInt putcharFn w.toInt32 s
            kvprintfTo rest args s
          | _ => .error .wild
        else if d = charX then
          match args with
          | .word w :: args => do
            let s ← putHex putcharFn w s
            kvprintfTo rest args s
          | _ => .error .wild
        else kvprintfTo (d :: rest) args s
    else if c = charNewline then do
      let s ← newlineFn s
      kvprintfTo str args s
    else if c = charTab then do
      let s ← putChars putcharFn [0x20, 0x20, 0x20, 0x20] s
      kvprintfTo str args s
    else do
      let s ← putcharFn c s
      kvprintfTo str args s

end

/-! ## `kvsnprintf` -/

/-- `snprintf_ctx`. -/
structure SnprintfCtx where
  buf : List (Option UInt8)
  size : UInt32
  cursor : Nat

def snprintfPutchar (c : UInt8) (ctx : SnprintfCtx) : K SnprintfCtx :=
  if ctx.cursor < (ctx.size - 1).toNat then do
    let buf ← putCell ctx.buf ctx.cursor c
    pure { ctx with buf := buf, cursor := ctx.cursor + 1 }
  else .ok ctx

def snprintfNewline (ctx : SnprintfCtx) : K SnprintfCtx := snprintfPutchar charNewline ctx

def kvsnprintf (buf : List (Option UInt8)) (size : UInt32) (fmt : List UInt8) (args : List Arg) :
    K (List (Option UInt8)) := do
  let ctx ← kvprintfTo snprintfPutchar snprintfNewline fmt args ⟨buf, size, 0⟩
  if ctx.cursor < size.toNat then putCell ctx.buf ctx.cursor 0
  else putCell ctx.buf (size - 1).toNat 0

/-! ## The expansion -/

/-- A call of `putchar_fn` or of `newline_fn`. -/
inductive Output
  | char (c : UInt8)
  | newline
  deriving DecidableEq

/-- What a directive stands for, with `dec` for the numerals of integers. -/
inductive Conversion (dec : Int32 → List UInt8) : (d : UInt8) → Arg → (e : List UInt8) → Prop
  | str {s : List UInt8} (hs : 0 ∉ s) : Conversion dec charS (.str s) s
  | dec (w : UInt32) : Conversion dec charD (.word w) (dec w.toInt32)
  | hex (w : UInt32) : Conversion dec charX (.word w) (0x30 :: charX :: hexadecimal w.toNat)

/-- The arguments match the format, and the format expands to the calls. -/
inductive Formats (dec : Int32 → List UInt8) : (fmt : List UInt8) → List Arg → List Output → Prop
  | nil (args : List Arg) : Formats dec [] args []
  | char {c : UInt8} {fmt : List UInt8} {args : List Arg} {es : List Output}
      (hc : c ∉ [0, percent, charNewline, charTab]) (hrest : Formats dec fmt args es) :
      Formats dec (c :: fmt) args (.char c :: es)
  | newline {fmt : List UInt8} {args : List Arg} {es : List Output}
      (hrest : Formats dec fmt args es) : Formats dec (charNewline :: fmt) args (.newline :: es)
  | tab {fmt : List UInt8} {args : List Arg} {es : List Output} (hrest : Formats dec fmt args es) :
      Formats dec (charTab :: fmt) args (List.replicate 4 (.char 0x20) ++ es)
  | directive {d : UInt8} {fmt : List UInt8} {arg : Arg} {args : List Arg} {e : List UInt8}
      {es : List Output} (hd : Conversion dec d arg e) (hrest : Formats dec fmt args es) :
      Formats dec (percent :: d :: fmt) (arg :: args) (e.map .char ++ es)

/-- The numeral that `%d` is to print. -/
def decimalOf (n : Int32) : List UInt8 := decimal n.toInt

/-- The characters that `%d` prints. -/
def intChars (n : Int32) : List UInt8 :=
  (if 10 ≤ n then [intChar (0x30 + n / 10)] else []) ++ [intChar (0x30 + n % 10)]

/-- The arguments that `%d` takes, in a format in which every directive takes one. -/
def intArgs : (fmt : List UInt8) → List Arg → List Int32
  | [], _ => []
  | c :: fmt, args =>
    if c = percent then
      match fmt, args with
      | d :: fmt, .word w :: args => (if d = charD then [w.toInt32] else []) ++ intArgs fmt args
      | _ :: fmt, .str _ :: args => intArgs fmt args
      | _, _ => []
    else intArgs fmt args

/-- Makes the calls. -/
def replay {σ : Type} (putcharFn : UInt8 → σ → K σ) (newlineFn : σ → K σ) : List Output → σ → K σ
  | [], s => .ok s
  | .char c :: es, s => do
    let s ← putcharFn c s
    replay putcharFn newlineFn es s
  | .newline :: es, s => do
    let s ← newlineFn s
    replay putcharFn newlineFn es s

/-- Keeps the calls, in order. -/
def logChar (c : UInt8) (es : List Output) : K (List Output) := .ok (es ++ [.char c])

def logNewline (es : List Output) : K (List Output) := .ok (es ++ [.newline])

variable {σ : Type} {putcharFn : UInt8 → σ → K σ} {newlineFn : σ → K σ} {s : σ} {c d : UInt8}
  {fmt e cs : List UInt8} {args : List Arg} {arg : Arg} {es fs : List Output} {x : UInt32} {n : Int32}

/-! ## Numbers -/

theorem putInt_eq : putInt putcharFn n s = putChars putcharFn (intChars n) s := by
  unfold putInt intChars
  split
  · simp only [List.cons_append, List.nil_append, putChars]
    cases putcharFn (intChar (0x30 + n / 10)) s with
    | error f => rfl
    | ok s' =>
      simp only [ok_bind]
      cases putcharFn (intChar (0x30 + n % 10)) s' <;> rfl
  · simp only [List.nil_append, putChars, pure_bind]
    cases putcharFn (intChar (0x30 + n % 10)) s <;> rfl

/-- The nibble is the next digit. -/
theorem toNat_nibble {j : Nat} (hj : j < 8) :
    ((x >>> UInt32.ofNat (j * 4)) &&& 0xF).toNat = x.toNat / 16 ^ j % 16 := by
  have hsize : j * 4 < UInt32.size := Nat.lt_trans (show j * 4 < 32 by omega) (by decide)
  have hshift : (UInt32.ofNat (j * 4)).toNat = j * 4 := UInt32.toNat_ofNat_of_lt' hsize
  have hshort : j * 4 % 32 = j * 4 := Nat.mod_eq_of_lt (by omega)
  have hand : ((x >>> UInt32.ofNat (j * 4)) &&& 0xF).toNat = (x >>> UInt32.ofNat (j * 4)).toNat % 16 :=
    Nat.and_two_pow_sub_one_eq_mod _ 4
  rw [hand, UInt32.toNat_shiftRight, hshift, hshort, Nat.shiftRight_eq_div_pow, Nat.mul_comm,
    Nat.pow_mul]

/-- The numeral of the upper nibbles, which is empty if they are zero, is completed by the loop. -/
theorem putNibbles_eq {j : Nat} (hj : j ≤ 8) : ∃ cs,
    ((Nat.digits 16 x.toNat).map digitChar).reverse =
        ((Nat.digits 16 (x.toNat / 16 ^ j)).map digitChar).reverse ++ cs ∧
      ∀ s, putNibbles putcharFn x j (decide (x.toNat / 16 ^ j ≠ 0)) s = putChars putcharFn cs s := by
  induction j with
  | zero => exact ⟨[], by simp, fun s => rfl⟩
  | succ j ih =>
    obtain ⟨cs, hdigits, hloop⟩ := ih (by omega)
    have hnibble := @toNat_nibble x j (by omega)
    have hupper : x.toNat / 16 ^ j / 16 = x.toNat / 16 ^ (j + 1) := by
      rw [Nat.div_div_eq_div_mul, Nat.pow_succ]
    have hsplit := Nat.div_add_mod (x.toNat / 16 ^ j) 16
    rw [hupper] at hsplit
    by_cases hzero : x.toNat / 16 ^ j = 0
    · have hnone : x.toNat / 16 ^ (j + 1) = 0 := by omega
      have hstill : (x >>> UInt32.ofNat (j * 4)) &&& 0xF = 0 := by
        rw [← UInt32.toNat_inj, hnibble, hzero]
        rfl
      refine ⟨cs, by rw [hdigits, hzero, hnone], fun s => ?_⟩
      have hnext := hloop s
      simp only [hzero, ne_eq, not_true, decide_false] at hnext
      have hstarted : decide (x.toNat / 16 ^ (j + 1) ≠ 0) = false := by simp [hnone]
      rw [hstarted, putNibbles]
      simp only [hstill, ne_eq, not_true, Bool.false_eq_true, or_false, if_false, hnext]
    · have hstarts : (x >>> UInt32.ofNat (j * 4)) &&& 0xF ≠ 0 ∨
          decide (x.toNat / 16 ^ (j + 1) ≠ 0) = true := by
        by_contra hno
        rw [not_or, not_not, ← UInt32.toNat_inj, hnibble] at hno
        have hupperZero : x.toNat / 16 ^ (j + 1) = 0 := by simpa using hno.2
        have hlow : x.toNat / 16 ^ j % 16 = 0 := hno.1
        omega
      have hdigit : hexDigits.getD ((x >>> UInt32.ofNat (j * 4)) &&& 0xF).toNat 0 =
          digitChar (x.toNat / 16 ^ j % 16) := by
        have hchar := hexDigit_eq (x >>> UInt32.ofNat (j * 4))
        have hmod : (x >>> UInt32.ofNat (j * 4)).toNat % 16 = x.toNat / 16 ^ j % 16 := by
          rw [← hnibble]
          exact (Nat.and_two_pow_sub_one_eq_mod _ 4).symm
        rwa [hexDigit, hmod] at hchar
      refine ⟨digitChar (x.toNat / 16 ^ j % 16) :: cs, ?_, fun s => ?_⟩
      · rw [hdigits, Nat.digits_def' (by decide) (Nat.pos_of_ne_zero hzero), hupper, List.map_cons,
          List.reverse_cons, List.append_assoc]
        rfl
      · have hrest : ∀ s', putNibbles putcharFn x j true s' = putChars putcharFn cs s' := by
          intro s'
          rw [← hloop s', decide_eq_true hzero]
        rw [putNibbles]
        simp only [if_pos hstarts, hdigit, hrest, putChars]

theorem putHex_eq :
    putHex putcharFn x s = putChars putcharFn (0x30 :: charX :: hexadecimal x.toNat) s := by
  have htail : ∀ s, (if x = 0 then putcharFn 0x30 s else putNibbles putcharFn x 8 false s) =
      putChars putcharFn (hexadecimal x.toNat) s := by
    intro s
    unfold hexadecimal numeral
    by_cases hx : x = 0
    · subst hx
      have hchar : digitChar 0 = 0x30 := by decide
      have hzero : (0 : UInt32).toNat = 0 := rfl
      rw [if_pos rfl, if_pos hzero, hchar]
      simp only [putChars]
      cases putcharFn 0x30 s <;> rfl
    · have hne : x.toNat ≠ 0 := fun h => hx (UInt32.toNat_inj.1 h)
      obtain ⟨cs, hdigits, hloop⟩ := @putNibbles_eq σ putcharFn x 8 le_rfl
      have htop : x.toNat / 16 ^ 8 = 0 := Nat.div_eq_of_lt x.toNat_lt
      rw [htop] at hdigits
      have hrun := hloop s
      simp only [htop, ne_eq, not_true, decide_false] at hrun
      rw [if_neg hx, if_neg hne, hrun, hdigits]
      rfl
  unfold putHex
  simp only [putChars, htail]

/-! ## The calls that are made -/

theorem replay_append : replay putcharFn newlineFn (es ++ fs) s = (do
    let s ← replay putcharFn newlineFn es s
    replay putcharFn newlineFn fs s) := by
  induction es generalizing s with
  | nil => rfl
  | cons e es ih =>
    cases e with
    | char c =>
      simp only [List.cons_append, replay]
      cases putcharFn c s with
      | error f => rfl
      | ok s' => exact ih
    | newline =>
      simp only [List.cons_append, replay]
      cases newlineFn s with
      | error f => rfl
      | ok s' => exact ih

theorem replay_chars :
    replay putcharFn newlineFn (cs.map .char) s = putChars putcharFn cs s := by
  induction cs generalizing s with
  | nil => rfl
  | cons c cs ih =>
    simp only [List.map_cons, replay, putChars]
    cases putcharFn c s with
    | error f => rfl
    | ok s' => exact ih

theorem replay_log : replay logChar logNewline es fs = .ok (fs ++ es) := by
  induction es generalizing fs with
  | nil => rw [List.append_nil]; rfl
  | cons e es ih =>
    cases e with
    | char c =>
      simp only [replay, logChar, ok_bind, ih, List.append_assoc, List.singleton_append]
    | newline =>
      simp only [replay, logNewline, ok_bind, ih, List.append_assoc, List.singleton_append]

theorem kvprintfTo_directive (hd : Conversion intChars d arg e) :
    kvprintfTo putcharFn newlineFn (percent :: d :: fmt) (arg :: args) s = (do
      let s ← putChars putcharFn e s
      kvprintfTo putcharFn newlineFn fmt args s) := by
  rw [kvprintfTo.eq_def]
  cases hd with
  | str hs => rfl
  | dec w =>
    have hne : charD ≠ charS := by decide
    simp only [if_true, if_neg hne, putInt_eq]
  | hex w =>
    have hneS : charX ≠ charS := by decide
    have hneD : charX ≠ charD := by decide
    simp only [if_true, if_neg hneS, if_neg hneD, putHex_eq]

/-- The code makes the calls that a format expands to with the numerals of its own. -/
theorem kvprintfTo_eq (h : Formats intChars fmt args es) :
    kvprintfTo putcharFn newlineFn fmt args s = replay putcharFn newlineFn es s := by
  induction h generalizing s with
  | nil args => rfl
  | @char c fmt args es hc hrest ih =>
    simp only [List.mem_cons, List.not_mem_nil, or_false, not_or] at hc
    rw [kvprintfTo.eq_def]
    simp only [if_neg hc.2.1, if_neg hc.2.2.1, if_neg hc.2.2.2, ih, replay]
  | newline hrest ih =>
    have hne : charNewline ≠ percent := by decide
    rw [kvprintfTo.eq_def]
    simp only [if_neg hne, if_true, ih, replay]
  | tab hrest ih =>
    have hneP : charTab ≠ percent := by decide
    have hneN : charTab ≠ charNewline := by decide
    have hspaces : List.replicate 4 (Output.char 0x20) =
        ([0x20, 0x20, 0x20, 0x20] : List UInt8).map .char := rfl
    rw [kvprintfTo.eq_def, hspaces, replay_append, replay_chars]
    simp only [if_neg hneP, if_neg hneN, if_true, ih]
  | directive hd hrest ih =>
    rw [kvprintfTo_directive hd, replay_append, replay_chars]
    simp only [ih]

/-! ## The calls into a buffer -/

/-- The character that a call puts into a buffer. -/
def Output.byte : Output → UInt8
  | .char c => c
  | .newline => charNewline

/-- The calls fill the buffer as far as there is room in front of its last byte. -/
theorem replay_snprintf {buf : List (Option UInt8)} {size : UInt32} {done : List UInt8}
    (hlimit : (size - 1).toNat < buf.length) (hdone : done.length ≤ (size - 1).toNat) :
    replay snprintfPutchar snprintfNewline es ⟨written done buf, size, done.length⟩ =
      .ok ⟨written ((done ++ es.map Output.byte).take (size - 1).toNat) buf, size,
        ((done ++ es.map Output.byte).take (size - 1).toNat).length⟩ := by
  induction es generalizing done with
  | nil => rw [List.map_nil, List.append_nil, List.take_of_length_le hdone]; rfl
  | cons e es ih =>
    have hput : ∀ c, replay snprintfPutchar snprintfNewline es
        ⟨written ((done ++ [c]).take (size - 1).toNat) buf, size,
          ((done ++ [c]).take (size - 1).toNat).length⟩ =
        .ok ⟨written ((done ++ c :: es.map Output.byte).take (size - 1).toNat) buf, size,
          ((done ++ c :: es.map Output.byte).take (size - 1).toNat).length⟩ := by
      intro c
      rw [ih (List.length_take_le _ _), take_append_take, List.append_assoc, List.singleton_append]
    have hstep : ∀ c, snprintfPutchar c ⟨written done buf, size, done.length⟩ =
        .ok ⟨written ((done ++ [c]).take (size - 1).toNat) buf, size,
          ((done ++ [c]).take (size - 1).toNat).length⟩ := by
      intro c
      unfold snprintfPutchar
      rcases Nat.lt_or_eq_of_le hdone with hroom | hfull
      · rw [if_pos hroom, putCell_written, if_pos (by omega), List.take_of_length_le (by simpa using hroom),
          List.length_append]
        rfl
      · rw [if_neg (Nat.not_lt.2 hfull.ge), ← hfull, List.take_left]
    cases e with
    | char c =>
      simp only [replay, hstep, ok_bind, hput]
      rfl
    | newline =>
      simp only [replay, snprintfNewline, hstep, ok_bind, hput]
      rfl

/-- The buffer gets as much of the output as it has room for, and a zero byte behind it. -/
theorem kvsnprintf_eq {buf : List (Option UInt8)} {size : UInt32} (h : Formats intChars fmt args es)
    (hsize : 1 ≤ size.toNat) (hbuf : size.toNat ≤ buf.length) :
    kvsnprintf buf size fmt args =
      .ok (written ((es.map Output.byte).take (size.toNat - 1) ++ [0]) buf) := by
  have hlimit : (size - 1).toNat = size.toNat - 1 := UInt32.toNat_sub_of_le size 1 hsize
  have hreplay := @replay_snprintf es buf size [] (by omega) (Nat.zero_le _)
  rw [List.length_nil, written_nil, List.nil_append, hlimit] at hreplay
  have hle : ((es.map Output.byte).take (size.toNat - 1)).length ≤ size.toNat - 1 :=
    List.length_take_le _ _
  unfold kvsnprintf
  rw [kvprintfTo_eq h, hreplay, ok_bind]
  simp only
  rw [if_pos (by omega), putCell_written, if_pos (by omega)]

/-! ## The numerals that are right -/

theorem length_numeral_le {b n k : Nat} (hb : 1 < b) (h : b ^ k ≤ n) : k < (numeral b n).length := by
  have hn : n ≠ 0 := by
    rintro rfl
    exact absurd h (Nat.not_le_of_lt (Nat.pow_pos (by omega)))
  rwa [numeral, if_neg hn, List.length_reverse, List.length_map, Nat.lt_digits_length_iff hb]

theorem intChars_small : ∀ k < 100, intChars (Int32.ofNat k) =
    if k < 10 then [digitChar k] else [digitChar (k / 10), digitChar (k % 10)] := by
  decide

theorem numeral_small {k : Nat} (hk : k < 100) : numeral 10 k =
    if k < 10 then [digitChar k] else [digitChar (k / 10), digitChar (k % 10)] := by
  rw [numeral_eq (by decide)]
  split
  · rename_i hlt
    rw [Nat.div_eq_of_lt hlt, Nat.mod_eq_of_lt hlt, Nat.digits_zero]
    rfl
  · rw [Nat.digits_of_lt 10 (k / 10) (by omega) (by omega)]
    rfl

/-- The numerals of two digits are right. -/
theorem intChars_eq (hlo : 0 ≤ n.toInt) (hhi : n.toInt < 100) : intChars n = decimalOf n := by
  obtain ⟨k, hk⟩ := Int.eq_ofNat_of_zero_le hlo
  have hlt : k < 100 := by omega
  have hn : n = Int32.ofNat k := by
    rw [← Int32.toInt_inj, hk, Int32.toInt_ofNat_of_lt (by omega)]
  rw [decimalOf, decimal, if_neg (by omega), hk, Int.natAbs_natCast, numeral_small hlt, hn,
    intChars_small k hlt]

/-- All others are too short. -/
theorem length_intChars_lt (h : ¬ (0 ≤ n.toInt ∧ n.toInt < 100)) :
    (intChars n).length < (decimalOf n).length := by
  have hten : 10 ≤ n ↔ 10 ≤ n.toInt := Int32.le_iff_toInt_le
  unfold intChars decimalOf decimal
  by_cases hneg : n.toInt < 0
  · have hnumeral : 0 < (numeral 10 n.toInt.natAbs).length := length_numeral_le (by decide) (by omega)
    rw [if_neg (hten.not.2 (by omega)), if_pos hneg, List.length_cons]
    simpa using hnumeral
  · have hnumeral : 2 < (numeral 10 n.toInt.natAbs).length := length_numeral_le (by decide) (by omega)
    rw [if_pos (hten.2 (by omega)), if_neg hneg]
    simpa using hnumeral

/-- The integers that `%d` can print. -/
def Printable (n : Int32) : Prop := 0 ≤ n.toInt ∧ n.toInt < 100

theorem intArgs_cons (hc : c ≠ percent) : intArgs (c :: fmt) args = intArgs fmt args := by
  rw [intArgs.eq_def]
  exact if_neg hc

/-- The piece of a directive is right if its integer can be printed, and too short otherwise. -/
theorem Conversion.printed (h : Conversion decimalOf d arg e) : ∃ e' ns,
    Conversion intChars d arg e' ∧
      (∀ fmt args, intArgs (percent :: d :: fmt) (arg :: args) = ns ++ intArgs fmt args) ∧
      ((∀ n ∈ ns, Printable n) → e' = e) ∧
      ((∃ n ∈ ns, ¬ Printable n) → e'.length < e.length) := by
  cases h with
  | str hs => exact ⟨_, [], .str hs, fun _ _ => rfl, fun _ => rfl, by simp⟩
  | dec w =>
    refine ⟨_, [w.toInt32], .dec w, fun _ _ => rfl, fun hall => ?_, fun hsome => ?_⟩
    · obtain ⟨hlo, hhi⟩ := hall w.toInt32 List.mem_cons_self
      exact intChars_eq hlo hhi
    · obtain ⟨n, hn, hno⟩ := hsome
      rw [List.mem_singleton.1 hn] at hno
      exact length_intChars_lt hno
  | hex w => exact ⟨_, [], .hex w, fun _ _ => rfl, fun _ => rfl, by simp⟩

/-- What the code prints is the expansion if all integers can be printed, and shorter otherwise. -/
theorem Formats.printed (h : Formats decimalOf fmt args es) : ∃ fs, Formats intChars fmt args fs ∧
    ((∀ n ∈ intArgs fmt args, Printable n) → fs = es) ∧
    ((∃ n ∈ intArgs fmt args, ¬ Printable n) → fs.length < es.length) := by
  induction h with
  | nil args => exact ⟨[], .nil args, fun _ => rfl, by simp [intArgs]⟩
  | @char c fmt args es hc hrest ih =>
    obtain ⟨fs, hfs, hright, hshort⟩ := ih
    simp only [List.mem_cons, List.not_mem_nil, or_false, not_or] at hc
    rw [intArgs_cons hc.2.1]
    exact ⟨_, .char (by simpa using hc) hfs, fun hall => by rw [hright hall], fun hsome => by
      simpa using hshort hsome⟩
  | newline hrest ih =>
    obtain ⟨fs, hfs, hright, hshort⟩ := ih
    rw [intArgs_cons (by decide)]
    exact ⟨_, .newline hfs, fun hall => by rw [hright hall], fun hsome => by
      simpa using hshort hsome⟩
  | tab hrest ih =>
    obtain ⟨fs, hfs, hright, hshort⟩ := ih
    rw [intArgs_cons (by decide)]
    exact ⟨_, .tab hfs, fun hall => by rw [hright hall], fun hsome => by
      simpa using hshort hsome⟩
  | @directive d fmt arg args e es hd hrest ih =>
    obtain ⟨fs, hfs, hright, hshort⟩ := ih
    obtain ⟨e', ns, he', hargs, heq, hlt⟩ := hd.printed
    rw [hargs]
    refine ⟨_, .directive he' hfs, fun hall => ?_, fun hsome => ?_⟩
    · rw [heq fun n hn => hall n (List.mem_append_left _ hn),
        hright fun n hn => hall n (List.mem_append_right _ hn)]
    · have hpiece : e'.length ≤ e.length := by
        by_cases hns : ∀ n ∈ ns, Printable n
        · exact (congrArg List.length (heq hns)).le
        · push Not at hns
          exact (hlt hns).le
      have hrestLen : fs.length ≤ es.length := by
        by_cases hall : ∀ n ∈ intArgs fmt args, Printable n
        · exact (congrArg List.length (hright hall)).le
        · push Not at hall
          exact (hshort hall).le
      rw [List.length_append, List.length_append, List.length_map, List.length_map]
      obtain ⟨n, hn, hno⟩ := hsome
      rcases List.mem_append.1 hn with hn | hn
      · have := hlt ⟨n, hn, hno⟩
        omega
      · have := hshort ⟨n, hn, hno⟩
        omega

/-- `kvprintf_to` makes the calls that the format expands to exactly if every argument of `%d` is
between 0 and 99. -/
theorem kvprintf_to_iff (h : Formats decimalOf fmt args es) :
    kvprintfTo logChar logNewline fmt args [] = .ok es ↔
      ∀ n ∈ intArgs fmt args, 0 ≤ n.toInt ∧ n.toInt < 100 := by
  obtain ⟨fs, hfs, hright, hshort⟩ := h.printed
  rw [kvprintfTo_eq hfs, replay_log, List.nil_append, Except.ok.injEq]
  refine ⟨fun heq => ?_, hright⟩
  by_contra hno
  push Not at hno
  obtain ⟨n, hn, hrange⟩ := hno
  have hlt := hshort ⟨n, hn, fun hp => absurd hp.2 (Int.not_lt.2 (hrange hp.1))⟩
  rw [heq] at hlt
  exact lt_irrefl _ hlt

/-- `kvprintf_to("%d:\n", 42)`. -/
theorem kvprintf_to_iff_two :
    kvprintfTo logChar logNewline [percent, charD, 0x3A, charNewline] [.word 42] [] =
      .ok [.char 0x34, .char 0x32, .char 0x3A, .newline] := by
  have hnumeral : decimalOf (42 : UInt32).toInt32 = [0x34, 0x32] := by
    rw [← intChars_eq (by decide) (by decide)]
    decide
  have hformats : Formats decimalOf [percent, charD, 0x3A, charNewline] [.word 42]
      ((decimalOf (42 : UInt32).toInt32).map .char ++ [.char 0x3A, .newline]) :=
    .directive (.dec 42) (.char (by decide) (.newline (.nil [])))
  have hexact := (kvprintf_to_iff hformats).2 fun n hn => by
    rw [show n = 42 from List.mem_singleton.1 hn]
    decide
  rw [hnumeral] at hexact
  exact hexact

/-- `kvprintf_to("%d", 100)` prints `:0`. -/
theorem kvprintf_to_hundred :
    Formats decimalOf [percent, charD] [.word 100] [.char 0x31, .char 0x30, .char 0x30] ∧
      kvprintfTo logChar logNewline [percent, charD] [.word 100] [] =
        .ok [.char 0x3A, .char 0x30] := by
  have hnumeral : decimalOf (100 : UInt32).toInt32 = [0x31, 0x30, 0x30] := by
    have hint : (100 : UInt32).toInt32.toInt = 100 := by decide
    rw [decimalOf, hint]
    simp [decimal, numeral, digitChar]
  refine ⟨?_, by decide⟩
  have hformats : Formats decimalOf [percent, charD] [.word 100]
      ((decimalOf (100 : UInt32).toInt32).map .char ++ []) := .directive (.dec 100) (.nil [])
  rwa [hnumeral] at hformats

end Kaku
