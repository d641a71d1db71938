-- SUMMARY: The session of the shell on the screen: the prompts, the typed lines and the output, one behind the other.
import Kaku.Tty.Console
import Kaku.User.Kai

/-!
# The session on the screen

The shell writes its prompt, reads the line that is typed behind it, and acts on it. The kernel
echoes what is typed, and the programs that the shell starts write to the same terminal. The
screen has the last rows of all this.
-/

namespace Kaku

/-! ## On the console -/

namespace Console

def typeKeys : List UInt8 → Console → K Console
  | [], k => .ok k
  | c :: cs, k => do
    let k ← k.stdinPut c
    typeKeys cs k

def buffered (k : Console) : List UInt8 :=
  match k.stdinBuf with
  | none => []
  | some buf => (List.range k.stdinBufLen).map buf

/-- The keys of a line, and Enter while the shell waits for the line. `stdin_flush` echoes nothing
and empties the buffer, and `scheduler_wake_stdin` takes the length of the line as a `uint8_t`. -/
def typeLine (keys : List UInt8) (k : Console) : K (List UInt8 × Console) := do
  let k ← k.typeKeys keys
  pure (k.buffered.take (k.stdinBufLen % 256), { k with stdinBufLen := 0 })

/-- The calls of `SYS_WRITE` with these texts. -/
def writeAll : List (List UInt8) → Console → K Console
  | [], k => .ok k
  | text :: texts, k => do
    let (_, k) ← k.syscallWrite (some text)
    writeAll texts k

end Console

/-- What is typed for the shell, and what the program writes that it starts, if there is one. -/
structure KaiInput where
  keys : List UInt8
  answers : KaiAnswers
  output : List (List UInt8)

/-- The keys for which the line buffer has room. -/
def typed (keys : List UInt8) : List UInt8 := keys.take (stdinBufMax - 1)

/-- What the shell gets. -/
def KaiInput.line (i : KaiInput) : List UInt8 := (typed i.keys).take ((typed i.keys).length % 256)

def KaiInput.read (i : KaiInput) : List UInt8 × KaiAnswers := (i.line, i.answers)

/-- The texts that come to the terminal by an act of the shell. -/
def Act.texts (output : List (List UInt8)) : Act → List (List UInt8)
  | .write text => [text]
  | .exec _ _ _ => output
  | _ => []

namespace Kai

/-- `main` up to its `read`. -/
def prompt (a : KaiAnswers) (s : Kai) : K (List Act) :=
  say promptFmt [(s.environ.getenv pwdVar).getD (cString s.wd)] (a.printf 0)

/-- The loop of `main` at the terminal, up to the end of the input. -/
def onConsole : List KaiInput → Kai → Console → K Console
  | [], _, k => .ok k
  | i :: inputs, s, k => do
    let prompt ← s.prompt i.answers
    let k ← k.writeAll (prompt.flatMap (Act.texts i.output))
    let (line, k) ← k.typeLine i.keys
    let (acts, next) ← s.readLine line i.answers
    let k ← k.writeAll ((acts.drop prompt.length).flatMap (Act.texts i.output))
    match next with
    | none => pure k
    | some s => onConsole inputs s k

end Kai

/-! ## The transcript -/

namespace Session

def promptText (t : Session) : List UInt8 := ascii "(kai) " ++ (render t.names ++ ascii " > ")

/-- What a line adds. -/
def turnText (t : Session) (i : KaiInput) : List UInt8 :=
  t.promptText ++ (typed i.keys ++ (ascii "\n" ++
    ((t.obey i.answers (command i.line)).1.flatMap (Act.texts i.output)).flatten))

def transcript : List KaiInput → Session → List UInt8
  | [], _ => []
  | i :: inputs, t => t.turnText i ++
    match (t.obey i.answers (command i.line)).2 with
    | none => []
    | some t => transcript inputs t

end Session

variable {t t' : Tty} {k : Console} {text keys s : List UInt8} {texts : List (List UInt8)}
  {c : UInt8} {y : Nat} {i : KaiInput} {inputs : List KaiInput}

/-! ## Text on the terminal -/

namespace Tty

theorem rowsFrom_append (row text : List UInt8) : ∃ behind last,
    rowsFrom row text = behind ++ [last] ∧
      ∀ s, rowsFrom row (text ++ s) = behind ++ rowsFrom last s := by
  induction text generalizing row with
  | nil => exact ⟨[], row, rfl, fun s => rfl⟩
  | cons c text ih =>
    by_cases hnl : c = charNewline
    · obtain ⟨behind, last, hrows, happend⟩ := ih []
      refine ⟨row :: behind, last, ?_, fun s => ?_⟩
      · rw [rowsFrom, if_pos hnl, hrows, List.cons_append]
      · rw [List.cons_append, rowsFrom, if_pos hnl, happend, List.cons_append]
    by_cases hfull : row.length + 1 = ttyCols
    · obtain ⟨behind, last, hrows, happend⟩ := ih []
      refine ⟨(row ++ [c]) :: behind, last, ?_, fun s => ?_⟩
      · rw [rowsFrom, if_neg hnl, if_pos hfull, hrows, List.cons_append]
      · rw [List.cons_append, rowsFrom, if_neg hnl, if_pos hfull, happend, List.cons_append]
    · obtain ⟨behind, last, hrows, happend⟩ := ih (row ++ [c])
      refine ⟨behind, last, ?_, fun s => ?_⟩
      · rw [rowsFrom, if_neg hnl, if_neg hfull, hrows]
      · rw [List.cons_append, rowsFrom, if_neg hnl, if_neg hfull, happend]

/-- The terminal has the end of the text, and the cursor is behind it. -/
def Printed (t : Tty) (text : List UInt8) : Prop :=
  ∃ behind last, rowsFrom [] text = behind ++ [last] ∧ t.Ends behind last

theorem printed_init {t₀ : Tty} (hinit : t₀.init = .ok t) : t.Printed [] := by
  obtain ⟨t₁, hinit', hends⟩ := t₀.init_spec
  obtain rfl : t₁ = t := Except.ok.inj (hinit'.symm.trans hinit)
  exact ⟨[], [], rfl, hends⟩

theorem Printed.run (h : t.Printed text) (hff : formFeed ∉ s) :
    ∃ t', putChars putchar s t = .ok t' ∧ t'.Printed (text ++ s) := by
  obtain ⟨behind, last, hrows, hends⟩ := h
  obtain ⟨behind', last', hrows', happend⟩ := rowsFrom_append [] text
  obtain ⟨rfl, hlast⟩ := List.append_inj' (hrows'.symm.trans hrows) rfl
  obtain rfl := List.singleton_inj.1 hlast
  obtain ⟨t', next, last'', hrun, hnext, hends'⟩ := hends.run hff
  exact ⟨t', hrun, _, _, by rw [happend, hnext, List.append_assoc], hends'⟩

theorem Printed.putchar (h : t.Printed text) (hff : c ≠ formFeed) :
    ∃ t', Tty.putchar c t = .ok t' ∧ t'.Printed (text ++ [c]) := by
  obtain ⟨t', hrun, hprinted⟩ := h.run (s := [c]) (by simpa using hff.symm)
  unfold putChars at hrun
  obtain ⟨t₁, hputchar, hrun⟩ := bind_eq_ok.1 hrun
  cases hrun
  exact ⟨t', hputchar, hprinted⟩

/-- Drawing leaves the text alone. -/
theorem Printed.drawn {S : Nat → Prop} (h : t.Printed text) (hdrawn : Drawn S t t') :
    t'.Printed text := by
  obtain ⟨behind, last, hrows, hends⟩ := h
  rw [hdrawn.same]
  exact ⟨behind, last, hrows, hends.setVesa⟩

theorem Printed.wf (h : t.Printed text) : t.Wf := by
  obtain ⟨behind, last, -, hends⟩ := h
  exact hends.wf

theorem Printed.flushFrom (h : t.Printed text) (hy : y ≤ ttyRows) :
    ∃ t', Tty.flushFrom y t = .ok t' ∧ t'.Printed text := by
  have hcy := h.wf.cursorY
  obtain ⟨t', hflush, hdrawn⟩ := @flushLines_spec t (t.cursorY + 1 - y) y (by omega)
  exact ⟨t', hflush, h.drawn hdrawn⟩

theorem Printed.flushCurrentLine (h : t.Printed text) :
    ∃ t', Tty.flushCurrentLine t = .ok t' ∧ t'.Printed text := by
  obtain ⟨t', hflush, hdrawn⟩ := flushLine_spec (t := t) h.wf.cursorY
  exact ⟨t', hflush, h.drawn hdrawn⟩

end Tty

/-! ## Text on the console -/

namespace Console

/-- The text has been printed, and the line buffer is empty. -/
structure Ready (k : Console) (text : List UInt8) : Prop where
  printed : k.tty.Printed text
  buf : k.stdinBuf.isSome
  empty : k.stdinBufLen = 0

theorem Ready.write (h : k.Ready text) (hff : Tty.formFeed ∉ s) :
    ∃ r k', k.syscallWrite (some s) = .ok (r, k') ∧ k'.Ready (text ++ s) := by
  obtain ⟨t₁, hputs, hprinted⟩ := h.printed.run hff
  obtain ⟨t', hflush, hprinted'⟩ := hprinted.flushFrom h.printed.wf.cursorY.le
  refine ⟨0, { k with tty := t' }, ?_, hprinted', h.buf, h.empty⟩
  have hputs' : k.tty.puts s = .ok t₁ := hputs
  simp only [syscallWrite, hputs', ok_bind, hflush]
  rfl

theorem Ready.writeAll (h : k.Ready text) (hff : Tty.formFeed ∉ texts.flatten) :
    ∃ k', k.writeAll texts = .ok k' ∧ k'.Ready (text ++ texts.flatten) := by
  induction texts generalizing k text with
  | nil => exact ⟨k, rfl, by rwa [List.flatten_nil, List.append_nil]⟩
  | cons s texts ih =>
    rw [List.flatten_cons, List.mem_append, not_or] at hff
    obtain ⟨r, k₁, hwrite, hready⟩ := h.write hff.1
    obtain ⟨k', hrest, hready'⟩ := ih hready hff.2
    refine ⟨k', ?_, by rwa [List.flatten_cons, ← List.append_assoc]⟩
    rw [Console.writeAll, hwrite, ok_bind]
    exact hrest

theorem length_buffered (hbuf : k.stdinBuf.isSome) : k.buffered.length = k.stdinBufLen := by
  obtain ⟨buf, hsome⟩ := Option.isSome_iff_exists.1 hbuf
  simp only [buffered, hsome, List.length_map, List.length_range]

/-- A key for which there is room is echoed, and stands at the end of the line. -/
theorem stdinPut_spec (hprinted : k.tty.Printed text) (hbuf : k.stdinBuf.isSome)
    (hroom : k.stdinBufLen + 1 < stdinBufMax) (hff : c ≠ Tty.formFeed) :
    ∃ k', k.stdinPut c = .ok k' ∧ k'.tty.Printed (text ++ [c]) ∧ k'.stdinBuf.isSome ∧
      k'.stdinBufLen = k.stdinBufLen + 1 ∧ k'.buffered = k.buffered ++ [c] := by
  obtain ⟨buf, hsome⟩ := Option.isSome_iff_exists.1 hbuf
  obtain ⟨t₁, hputchar, h₁⟩ := hprinted.putchar hff
  obtain ⟨t', hflush, h'⟩ := h₁.flushCurrentLine
  refine ⟨⟨t', some fun j => if j = k.stdinBufLen then c else buf j, k.stdinBufLen + 1⟩, ?_, h',
    rfl, rfl, ?_⟩
  · rw [stdinPut, hsome]
    simp only [if_neg hroom.not_ge, hputchar, hflush, ok_bind]
    rfl
  · simp only [buffered, hsome, List.range_succ, List.map_append, List.map_singleton, if_true]
    refine congrArg (· ++ [c]) (List.map_congr_left fun j hj => if_neg ?_)
    exact (List.mem_range.1 hj).ne

theorem typeKeys_spec (hprinted : k.tty.Printed text) (hbuf : k.stdinBuf.isSome)
    (hlen : k.stdinBufLen < stdinBufMax)
    (hff : Tty.formFeed ∉ keys.take (stdinBufMax - 1 - k.stdinBufLen)) :
    ∃ k', k.typeKeys keys = .ok k' ∧
      k'.tty.Printed (text ++ keys.take (stdinBufMax - 1 - k.stdinBufLen)) ∧
      k'.stdinBuf.isSome ∧
      k'.buffered = k.buffered ++ keys.take (stdinBufMax - 1 - k.stdinBufLen) := by
  induction keys generalizing k text with
  | nil =>
    rw [List.take_nil, List.append_nil, List.append_nil]
    exact ⟨k, rfl, hprinted, hbuf, rfl⟩
  | cons c keys ih =>
    by_cases hfull : stdinBufMax ≤ k.stdinBufLen + 1
    · -- The key is dropped, as are all that follow.
      have hroom : stdinBufMax - 1 - k.stdinBufLen = 0 := by omega
      have hput : k.stdinPut c = .ok k := by
        obtain ⟨buf, hsome⟩ := Option.isSome_iff_exists.1 hbuf
        rw [stdinPut, hsome]
        exact if_pos hfull
      have hrest := ih hprinted hbuf hlen
      rw [hroom, List.take_zero] at hrest ⊢
      rw [typeKeys, hput, ok_bind]
      exact hrest List.not_mem_nil
    · obtain ⟨r, hroom⟩ : ∃ r, stdinBufMax - 1 - k.stdinBufLen = r + 1 :=
        ⟨stdinBufMax - 1 - k.stdinBufLen - 1, by omega⟩
      rw [hroom, List.take_succ_cons] at hff ⊢
      rw [List.mem_cons, not_or] at hff
      obtain ⟨k₁, hput, h₁, hbuf₁, hlen₁, hline₁⟩ :=
        stdinPut_spec hprinted hbuf (not_le.1 hfull) (Ne.symm hff.1)
      have hroom₁ : stdinBufMax - 1 - k₁.stdinBufLen = r := by omega
      obtain ⟨k', hrest, h', hbuf', hline'⟩ :=
        ih h₁ hbuf₁ (by omega) (by rw [hroom₁]; exact hff.2)
      rw [hroom₁, List.append_assoc] at h'
      rw [hroom₁, hline₁, List.append_assoc] at hline'
      rw [typeKeys, hput, ok_bind]
      exact ⟨k', hrest, h', hbuf', hline'⟩

theorem Ready.typeLine (h : k.Ready text) (hff : Tty.formFeed ∉ typed i.keys) :
    ∃ k', k.typeLine i.keys = .ok (i.line, k') ∧ k'.Ready (text ++ typed i.keys) := by
  have hroom : stdinBufMax - 1 - k.stdinBufLen = stdinBufMax - 1 := by rw [h.empty, Nat.sub_zero]
  have hnil : k.buffered = [] :=
    List.eq_nil_of_length_eq_zero ((length_buffered h.buf).trans h.empty)
  obtain ⟨k', hkeys, hprinted, hbuf, hline⟩ :=
    typeKeys_spec h.printed h.buf (by rw [h.empty]; decide) (by rwa [hroom])
  rw [hroom] at hprinted hline
  rw [hnil, List.nil_append] at hline
  refine ⟨{ k' with stdinBufLen := 0 }, ?_, hprinted, hbuf, rfl⟩
  rw [Console.typeLine, hkeys, ok_bind, ← length_buffered hbuf, hline]
  rfl

end Console

/-! ## The session -/

namespace Kai

variable {a : KaiAnswers} {t : Session} {environ : Environ} {rest : List UInt8} {s : Kai}

theorem Shows.onConsole (hs : s.Shows t) (h : k.Ready text)
    (hfits : t.FitsAll (inputs.map KaiInput.read)) (hff : Tty.formFeed ∉ t.transcript inputs) :
    ∃ k', s.onConsole inputs k = .ok k' ∧ k'.Ready (text ++ t.transcript inputs) := by
  induction inputs generalizing s t k text with
  | nil => exact ⟨k, rfl, by rwa [Session.transcript, List.append_nil]⟩
  | cons i inputs ih =>
    obtain ⟨hline, ha, hfit, hrest⟩ := hfits
    rw [Session.transcript, Session.turnText] at hff
    simp only [List.mem_append, not_or] at hff
    obtain ⟨⟨hprompt, hkeys, hend, hout⟩, hff⟩ := hff
    obtain ⟨next, hread, hnext⟩ := hs.readLine hline hfit ha
    -- The prompt, the line behind it, and what is written behind that.
    obtain ⟨k₁, hwrite, h₁⟩ := @Console.Ready.writeAll k text [t.promptText] h
      (by rwa [List.flatten_singleton])
    obtain ⟨k₂, htype, h₂⟩ := h₁.typeLine hkeys
    obtain ⟨k₃, hwrite', h₃⟩ := @Console.Ready.writeAll k₂ _ ([] :: ascii "\n" ::
      (t.obey i.answers (command i.line)).1.flatMap (Act.texts i.output)) h₂ (by
        rw [List.flatten_cons, List.flatten_cons, List.nil_append, List.mem_append, not_or]
        exact ⟨hend, hout⟩)
    have hready : k₃.Ready (text ++ t.turnText i) := by
      simpa only [Session.turnText, List.flatten_cons, List.flatten_nil, List.nil_append,
        List.append_nil, List.append_assoc] using h₃
    have hsay : s.prompt i.answers = .ok [.write t.promptText] := hs.prompt ha
    have hfirst : [Act.write t.promptText].flatMap (Act.texts i.output) = [t.promptText] := rfl
    have hacts : ((t.readLine i.line i.answers).1.drop 1).flatMap (Act.texts i.output) = [] ::
        ascii "\n" :: (t.obey i.answers (command i.line)).1.flatMap (Act.texts i.output) := rfl
    have hstate : (t.readLine i.line i.answers).2 = (t.obey i.answers (command i.line)).2 := rfl
    rw [hstate] at hnext hrest
    rw [Kai.onConsole, hsay, ok_bind, Session.transcript]
    simp only [hfirst, hwrite, htype, hread, List.length_singleton, hacts, hwrite', ok_bind]
    cases hobey : (t.obey i.answers (command i.line)).2 with
    | none =>
      rw [hobey] at hnext
      cases hnext
      exact ⟨k₃, rfl, by rwa [List.append_nil]⟩
    | some t' =>
      rw [hobey] at hnext hff hrest
      cases hnext with
      | some hs' =>
        obtain ⟨k', hloop, hready'⟩ := ih hs' hready (hrest t' rfl) hff
        exact ⟨k', hloop, by rwa [← List.append_assoc]⟩

/-- `ls`, which prints two names, and `exit`. -/
def listAndExit : List KaiInput :=
  [⟨ascii "ls", granting, [ascii "a  b", ascii "\n"]⟩, ⟨ascii "exit", granting, []⟩]

end Kai

end Kaku
