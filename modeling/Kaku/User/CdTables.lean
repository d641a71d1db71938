-- SUMMARY: The shell that reads `cd` commands, and for which of them its tables and its buffer are large enough.
import Kaku.User.Cd
import Kaku.Lib.Run

/-!
# The tables of `cd`

`main` and `__builtin_cd` of `user_fs/src/kai.c`, as far as `cd` commands go: a line is
split at its spaces, and the second token is the target. The working directory is what the
last successful `cd` has left in the environment.
-/

namespace Kaku

def space : UInt8 := 0x20
def kaiStdinBufMax : Nat := 512

/-- `"cd"`. -/
def cdName : List UInt8 := [0x63, 0x64]

/-- `"/user"`. -/
def userDir : List UInt8 := [0x2F, 0x75, 0x73, 0x65, 0x72]

/-! ## The shell -/

/-- What the shell keeps from line to line. -/
structure Shell where
  /-- The 512 bytes at `wd`. -/
  wd : List UInt8
  pwd : Option (List UInt8)
  home : Option (List UInt8)

/-- The loop of `main` that splits the line. -/
def commandPartsLoop :
    (fuel : Nat) → (tok save : Option (List UInt8)) → (n : Nat) → StrTable → K (Nat × StrTable)
  | 0, _, _, _, _ => .error .hang
  | _ + 1, none, _, n, parts => .ok (n, parts)
  | fuel + 1, some tok, save, n, parts =>
    if n < kaiTokensMax then do
      let parts ← parts.put n (some tok)
      let (tok, save) := strtok save none [space]
      commandPartsLoop fuel tok save (n + 1) parts
    else .ok (n, parts)

/-- `command_parts`, which has room for 31 tokens and the null pointer behind them. -/
def commandParts (line : List UInt8) : K StrTable := do
  let (tok, save) := strtok none (some line) [space]
  let (n, parts) ← commandPartsLoop (line.length + 1) tok save 0 (List.replicate (kaiTokensMax + 1) none)
  parts.put n none

/-- The target of `__builtin_cd`, or none where there is not even `$HOME`. -/
def cdTarget (home : Option (List UInt8)) (args : StrTable) : K (Option (List UInt8)) := do
  match ← args.get 1 with
  | none => pure home
  | some arg => if arg.length = 0 then pure home else pure (some arg)

/-- The target of a line, if the line is a `cd` command that has one. -/
def lineTarget (home : Option (List UInt8)) (line : List UInt8) : K (Option (List UInt8)) := do
  let parts ← commandParts line
  match ← parts.get 0 with
  | none => pure none
  | some cmd => if strcmp cmd cdName = 0 then cdTarget home parts else pure none

/-- `readdir` finds the directory or does not, and `setenv` has memory or has not. -/
structure CdAnswers where
  mallocs : Mallocs
  found : Bool
  setenv : Bool

def builtinCd (target : List UInt8) (a : CdAnswers) (s : Shell) : K Shell := do
  let (wd, _) ← resolve target s.pwd s.wd a.mallocs
  if a.found && a.setenv then pure { s with wd := wd, pwd := some (cString wd) }
  else pure { s with wd := wd }

/-- The shell after a line. Other commands leave its working directory alone. -/
def readLine (line : List UInt8) (a : CdAnswers) (s : Shell) : K Shell := do
  match ← lineTarget s.home line with
  | none => pure s
  | some target => builtinCd target a s

/-- The shell when it reads its first line. -/
structure Shell.Start (s : Shell) : Prop where
  wd : s.wd.length = wdMaxLen
  pwd : s.pwd = some userDir
  home : s.home = some userDir

/-- A line that fits into the input buffer together with its zero byte. -/
def FitsInput (line : List UInt8) : Prop := 0 ∉ line ∧ line.length < kaiStdinBufMax

/-! ## The tokens of a line -/

variable {line target cmd arg : List UInt8} {s s' : Shell} {a : CdAnswers} {fs : List (List UInt8)}
  {tok save home : Option (List UInt8)} {parts : StrTable} {done : List (List UInt8)} {fuel : Nat}

/-- The first 31 tokens, and a null pointer behind them. -/
theorem commandPartsLoop_spec (hp : Pending [space] tok save fs) (hfuel : fs.length < fuel)
    (hparts : parts.Starts done) (hlen : parts.length = kaiTokensMax + 1)
    (hdone : done.length ≤ kaiTokensMax) :
    ∃ parts', commandPartsLoop fuel tok save done.length parts =
        .ok (((done ++ fs).take kaiTokensMax).length, parts') ∧
      parts'.Starts ((done ++ fs).take kaiTokensMax) ∧ parts'.length = kaiTokensMax + 1 := by
  induction fs generalizing fuel tok save done parts with
  | nil =>
    obtain ⟨fuel, rfl⟩ : ∃ n, fuel = n + 1 := ⟨fuel - 1, by omega⟩
    have hnone : tok = none := hp
    subst hnone
    rw [List.append_nil, List.take_of_length_le hdone]
    exact ⟨parts, rfl, hparts, hlen⟩
  | cons f fs ih =>
    obtain ⟨fuel, rfl⟩ : ∃ n, fuel = n + 1 := ⟨fuel - 1, by omega⟩
    obtain ⟨rfl, hrest⟩ := hp
    rw [List.length_cons] at hfuel
    unfold commandPartsLoop
    by_cases hroom : done.length < kaiTokensMax
    · have hpending := pending_strtok [space] save none
      rw [Option.none_or, hrest] at hpending
      obtain ⟨parts', hloop, hrest'⟩ := ih hpending (Nat.lt_of_succ_lt_succ hfuel)
        (hparts.put (s := f) (by omega)) (by rw [List.length_set, hlen]) (by
          rw [List.length_append, List.length_singleton]
          exact hroom)
      rw [List.append_assoc, List.singleton_append] at hloop hrest'
      rw [List.length_append, List.length_singleton] at hloop
      refine ⟨parts', ?_, hrest'⟩
      rw [if_pos hroom, StrTable.put_ok (by omega), ok_bind]
      exact hloop
    · have hfull : done.length = kaiTokensMax := by omega
      have htake : (done ++ f :: fs).take kaiTokensMax = done := by
        rw [← hfull, List.take_left]
      rw [if_neg hroom, htake]
      exact ⟨parts, rfl, hparts, hlen⟩

theorem commandParts_spec (line : List UInt8) :
    ∃ parts, commandParts line = .ok parts ∧
      ∀ i ≤ (fields (isDelim [space]) line).length, i < kaiTokensMax →
        parts.get i = .ok (fields (isDelim [space]) line)[i]? := by
  have hpending := pending_strtok [space] none (some line)
  rw [Option.some_or, Option.getD_some] at hpending
  obtain ⟨parts, hloop, hparts, hlen⟩ := commandPartsLoop_spec hpending fields_fuel .nil
    (List.length_replicate (n := kaiTokensMax + 1) (a := none)) (Nat.zero_le _)
  rw [List.nil_append] at hloop hparts
  generalize hkept : (fields (isDelim [space]) line).take kaiTokensMax = kept at hloop hparts
  have hkept' : kept.length = min kaiTokensMax (fields (isDelim [space]) line).length := by
    rw [← hkept, List.length_take]
  refine ⟨parts.set kept.length none, ?_, fun i hi hmax => ?_⟩
  · unfold commandParts
    simp only
    rw [List.length_nil] at hloop
    rw [hloop, ok_bind, StrTable.put_ok (show kept.length < parts.length by omega)]
  · rcases Nat.lt_or_ge i kept.length with hin | hend
    · have hat : kept[i]? = (fields (isDelim [space]) line)[i]? := by
        rw [← hkept, List.getElem?_take_of_lt hmax]
      rw [← hat, List.getElem?_eq_getElem hin, ← hparts.get hin]
      simp only [StrTable.get, List.getElem?_set_ne (Nat.ne_of_gt hin)]
    · obtain rfl : i = kept.length := by omega
      rw [List.getElem?_eq_none (by omega)]
      simp only [StrTable.get, List.getElem?_set_self (show kept.length < parts.length by omega)]

/-- The target is the second token, or `$HOME` where there is none. -/
theorem lineTarget_spec (hzero : 0 ∉ line) : lineTarget home line = .ok
    (match fields (isDelim [space]) line with
      | [] => none
      | [cmd] => if cmd = cdName then home else none
      | cmd :: arg :: _ => if cmd = cdName then some arg else none) := by
  obtain ⟨parts, hparts, hget⟩ := commandParts_spec line
  have hcmd {cmd : List UInt8} (hmem : cmd ∈ fields (isDelim [space]) line) :
      strcmp cmd cdName = 0 ↔ cmd = cdName :=
    strcmp_eq_zero (fun h => hzero (mem_of_mem_fields hmem h)) (by decide)
  have hne {arg : List UInt8} (hmem : arg ∈ fields (isDelim [space]) line) : arg.length ≠ 0 :=
    fun h => (of_mem_fields hmem).1 (List.length_eq_zero_iff.1 h)
  unfold lineTarget
  rw [hparts, ok_bind, hget 0 (Nat.zero_le _) (by decide), ok_bind]
  have hone := hget 1
  generalize fields (isDelim [space]) line = fs at hcmd hne hone
  rcases fs with _ | ⟨cmd, _ | ⟨arg, rest⟩⟩
  · rfl
  · simp only [List.getElem?_cons_zero, hcmd List.mem_cons_self]
    split
    · unfold cdTarget
      rw [hone le_rfl (by decide), ok_bind]
      rfl
    · rfl
  · simp only [List.getElem?_cons_zero, hcmd List.mem_cons_self]
    split
    · unfold cdTarget
      rw [hone (by simp) (by decide), ok_bind]
      simp only [List.getElem?_cons_succ, List.getElem?_cons_zero,
        if_neg (hne (List.mem_cons_of_mem cmd List.mem_cons_self))]
      rfl
    · rfl

/-- Three characters of the line are not in the target. -/
theorem target_short (hline : FitsInput line) (hhome : home = some userDir)
    (htarget : lineTarget home line = .ok (some target)) : 0 ∉ target ∧ target.length ≤ 508 := by
  have huser : 0 ∉ userDir ∧ userDir.length ≤ 508 := by decide
  rw [lineTarget_spec hline.1, hhome] at htarget
  have hmem {arg : List UInt8} (harg : arg ∈ fields (isDelim [space]) line) : 0 ∉ arg :=
    fun h => hline.1 (mem_of_mem_fields harg h)
  have hfull := hline.2
  rw [kaiStdinBufMax] at hfull
  cases hfields : fields (isDelim [space]) line with
  | nil => simp [hfields] at htarget
  | cons cmd args =>
    rw [hfields] at htarget hmem
    cases args with
    | nil =>
      simp only at htarget
      split at htarget
      · cases htarget
        exact huser
      · cases htarget
    | cons arg rest =>
      simp only at htarget
      split at htarget
      · rename_i hcmd
        cases htarget
        have htwo := fields_two hfields
        rw [hcmd] at htwo
        refine ⟨hmem (List.mem_cons_of_mem cmd List.mem_cons_self), ?_⟩
        simp only [cdName, List.length_cons, List.length_nil] at htwo
        omega
      · cases htarget

/-! ## The working directory -/

/-- The working directory has at most 31 names, each short enough to be the first in the
buffer. -/
structure Shell.Inv (s : Shell) : Prop where
  wd : s.wd.length = wdMaxLen
  home : s.home = some userDir
  count : (pathNames (s.pwd.getD [slash])).length ≤ kaiTokensMax
  short : ∀ name ∈ pathNames (s.pwd.getD [slash]), name.length ≤ 508
  zero : 0 ∉ s.pwd.getD [slash]

theorem pathNames_userDir : pathNames userDir = [[0x75, 0x73, 0x65, 0x72]] :=
  @pathNames_render [[0x75, 0x73, 0x65, 0x72]] (by simp [slash])

theorem Shell.Start.inv (hstart : s.Start) : s.Inv where
  wd := hstart.wd
  home := hstart.home
  count := by
    rw [hstart.pwd, Option.getD_some, pathNames_userDir]
    decide
  short := by
    rw [hstart.pwd, Option.getD_some, pathNames_userDir]
    simp
  zero := by
    rw [hstart.pwd, Option.getD_some]
    decide

/-- With at most 31 names in the target nothing is overrun, and the buffer holds a string that
can be the next working directory. -/
theorem Shell.Inv.resolve (hs : s.Inv) (m : Mallocs) (hzero : 0 ∉ target)
    (hlen : target.length ≤ 508) (hcount : (pathNames target).length ≤ kaiTokensMax) :
    ∃ out m', Kaku.resolve target s.pwd s.wd m = .ok (out, m') ∧ out.length = wdMaxLen ∧
      0 ∈ out ∧ { s with wd := out, pwd := some (cString out) }.Inv := by
  by_cases hgrant : m 0 = true
  · obtain ⟨names, comp, m', hresolve, hcomp, hnames, hmem, -⟩ :=
      resolve_spec s.wd hgrant hzero hcount hs.count
    have hname : ∀ name ∈ names, name ≠ [] ∧ slash ∉ name ∧ name.length ≤ 508 ∧ 0 ∉ name := by
      intro name hin
      rcases List.mem_append.1 (hmem name hin) with hold | hnew
      · obtain ⟨hne, hslash, -, h⟩ := of_mem_pathNames hold
        exact ⟨hne, hslash, hs.short name hold, h hs.zero⟩
      · obtain ⟨hne, hslash, hle, h⟩ := of_mem_pathNames hnew
        exact ⟨hne, hslash, hle.trans hlen, h hzero⟩
    obtain ⟨out, kept, hjoin, hout, hsub, hpre, -⟩ := joinOut_spec hcomp hs.wd fun name hhead => by
      have hle := (hname name (List.mem_of_mem_head? hhead)).2.2.1
      rw [wdMaxLen]
      omega
    have hkept : ∀ name ∈ kept, name ≠ [] ∧ slash ∉ name ∧ name.length ≤ 508 ∧ 0 ∉ name :=
      fun name hin => hname name (hsub.subset hin)
    have hstring : cString out = render kept :=
      cString_eq hpre (zero_not_mem_render fun name hin => (hkept name hin).2.2.2)
    have hpath : pathNames (cString out) = kept := by
      rw [hstring]
      exact pathNames_render fun name hin => ⟨(hkept name hin).1, (hkept name hin).2.1⟩
    refine ⟨out, m', by rw [hresolve, hjoin, ok_bind], hout, hpre.subset (by simp), hout, hs.home, ?_,
      ?_, ?_⟩
    · rw [Option.getD_some, hpath]
      exact hsub.length_le.trans hnames
    · rw [Option.getD_some, hpath]
      exact fun name hin => (hkept name hin).2.2.1
    · rw [Option.getD_some, hstring]
      exact zero_not_mem_render fun name hin => (hkept name hin).2.2.2
  · obtain ⟨out, hresolve, hout, hpre⟩ := resolve_empty target s.pwd hgrant hs.wd
    have hstring : cString out = [] := cString_eq (show [] ++ [0] <+: out from hpre) (by simp)
    have hpath : pathNames (cString out) = [] := by
      rw [hstring]
      exact fields_nil
    refine ⟨out, m.next, hresolve, hout, hpre.subset (by simp), hout, hs.home, ?_, ?_, ?_⟩
    · rw [Option.getD_some, hpath]
      exact Nat.zero_le _
    · rw [Option.getD_some, hpath]
      simp
    · rw [Option.getD_some, hstring]
      simp

/-! ## Runs of the shell -/

/-- If the line is a `cd` command its target has at most 31 names. -/
def Shell.Fits (s : Shell) (line : List UInt8) : Prop :=
  ∀ target, lineTarget s.home line = .ok (some target) → (pathNames target).length ≤ kaiTokensMax

def Shell.Step (s : Shell) (line : List UInt8) (s' : Shell) : Prop :=
  FitsInput line ∧ s.Fits line ∧ ∃ a, readLine line a s = .ok s'

theorem Shell.Inv.step (hs : s.Inv) (hstep : s.Step line s') : s'.Inv := by
  obtain ⟨hline, hfits, a, hrun⟩ := hstep
  unfold readLine at hrun
  obtain ⟨t, htarget, hrest⟩ := bind_eq_ok.1 hrun
  cases t with
  | none =>
    cases hrest
    exact hs
  | some target =>
    obtain ⟨hzero, hlen⟩ := target_short hline hs.home htarget
    obtain ⟨out, m', hresolve, hout, -, hinv⟩ := hs.resolve a.mallocs hzero hlen (hfits target htarget)
    simp only [builtinCd, hresolve, ok_bind] at hrest
    split at hrest
    · cases hrest
      exact hinv
    · cases hrest
      exact ⟨hout, hs.home, hs.count, hs.short, hs.zero⟩

/-- After any lines before it whose targets have at most 31 names, a `cd` command stays inside
the tables and the buffer whatever `malloc` answers, and ends the buffer with a zero byte, if
and only if its target has at most 31 names. -/
theorem cd_in_tables_iff {s₀ : Shell} {lines : List (List UInt8)} (hstart : s₀.Start)
    (hlines : Kaku.Run Shell.Step s₀ lines s) (hline : FitsInput line)
    (htarget : lineTarget s.home line = .ok (some target)) :
    (∀ m, ∃ out m', resolve target s.pwd s.wd m = .ok (out, m') ∧ out.length = wdMaxLen ∧ 0 ∈ out) ↔
      (pathNames target).length ≤ kaiTokensMax := by
  have hs : s.Inv := hlines.invariant (fun _ _ _ hstep hs => hs.step hstep) hstart.inv
  constructor
  · intro hsafe
    by_contra hmany
    obtain ⟨out, m', hresolve, -⟩ := hsafe fun _ => true
    rw [resolve_wild (fun _ => rfl) (Nat.lt_of_not_le hmany) hs.count] at hresolve
    cases hresolve
  · intro hcount m
    obtain ⟨hzero, hlen⟩ := target_short hline hs.home htarget
    obtain ⟨out, m', hresolve, hout, hend, -⟩ := hs.resolve m hzero hlen hcount
    exact ⟨out, m', hresolve, hout, hend⟩

/-- The shell when it starts. -/
def firstShell : Shell where
  wd := List.replicate wdMaxLen 0
  pwd := some userDir
  home := some userDir

theorem firstShell_start : firstShell.Start := ⟨List.length_replicate, rfl, rfl⟩

/-- `cd bin`. -/
theorem cd_in_tables_bin :
    ∃ out m', resolve [0x62, 0x69, 0x6E] firstShell.pwd firstShell.wd (fun _ => true) =
        .ok (out, m') ∧
      out.length = wdMaxLen ∧ 0 ∈ out :=
  (cd_in_tables_iff firstShell_start (.refl firstShell)
    (show FitsInput (cdName ++ space :: [0x62, 0x69, 0x6E]) by unfold FitsInput; decide) rfl).2 ((length_fields_le _).trans (by decide)) _

/-- `cd a/a/.../a`, with 32 names. -/
theorem cd_overruns :
    let target := (List.replicate 31 [0x61, slash]).flatten ++ [0x61]
    firstShell.Start ∧ FitsInput (cdName ++ space :: target) ∧
      lineTarget firstShell.home (cdName ++ space :: target) = .ok (some target) ∧
        resolve target firstShell.pwd firstShell.wd (fun _ => true) = .error .wild :=
  ⟨firstShell_start, by unfold FitsInput; decide, rfl, rfl⟩

end Kaku
