-- SUMMARY: The shell: what its main loop does with each line, and the session that its user sees.
import Kaku.User.CdPath
import Kaku.User.CdTables
import Kaku.User.EnvironMap
import Kaku.User.Output

/-!
# `kai`

`user_fs/src/kai.c`. The environment is taken as its entries, with distinct names: what
`getenv` and `setenv` do with them is in `EnvironMap`. A session knows the working directory by its names, and takes
a line for the command it is. As long as every target of a `cd` fits, the code and the
session do the same for every line.
-/

namespace Kaku

/-! ## Texts -/

def promptFmt : List UInt8 := ascii "(kai) %s > "
def internalFmt : List UInt8 :=
  ascii "kai: internal error: command could not be split due to memory allocation failure\n"
def cdNoArgsFmt : List UInt8 := ascii "kai: cd: cd with no args, defaulting to $HOME\n"
def cdNoHomeFmt : List UInt8 := ascii "kai: cd: error: no $HOME env var is set\n"
def cdNotDirFmt : List UInt8 := ascii "cd: '%s' is not a directory or not found\n"
def pwdFmt : List UInt8 := ascii "Working directory: %s\n"
def binFmt : List UInt8 := ascii "/bin/%s"
def notFoundFmt : List UInt8 := ascii "command '%s' not found in '%s' (default path)\n"

def pwdVar : List UInt8 := ascii "PWD"
def homeVar : List UInt8 := ascii "HOME"
def pwdName : List UInt8 := ascii "pwd"
def exitName : List UInt8 := ascii "exit"

/-! ## The code -/

/-- What the shell asks the kernel for. -/
inductive Act
  | write (text : List UInt8)
  | exec (path : List UInt8) (argv env : List (List UInt8))
  | waitpid (pid : Int)
  | exit (code : Int)
  deriving DecidableEq

/-- `kai_cmd_t`. -/
inductive KaiCmd
  | empty | builtin | other
  deriving DecidableEq

/-- What `malloc` and the kernel answer while a line is handled. -/
structure KaiAnswers where
  /-- In each attempt of each `printf`. -/
  printf : Nat → Nat → Mallocs
  /-- For `command_parts`. -/
  table : Bool
  /-- In `__builtin_cd__resolve`. -/
  resolve : Mallocs
  setenv : Bool
  /-- For `bin_path`, and in the `snprintf` into it. -/
  binPath : Bool
  snprintf : Mallocs
  /-- Whether `readdir` finds a directory at the path. -/
  isDir : List UInt8 → Bool
  /-- What `exec` returns. -/
  pid : Int

/-- The entries of `environ`. -/
structure Environ where
  entries : List (List UInt8)
  form : EnvEntries entries
  deriving DecidableEq

def Environ.getenv (e : Environ) (name : List UInt8) : Option (List UInt8) := valueIn e.entries name

def Environ.setenv (e : Environ) (name value : List UInt8) : Environ where
  entries := Keyed.put nameOf e.entries (name ++ equals :: value)
  form := e.form.put

/-- The 512 bytes at `wd`, and `environ`. -/
structure Kai where
  wd : List UInt8
  environ : Environ

/-- A `printf` of strings. -/
def say (fmt : List UInt8) (strs : List (List UInt8)) (ms : Nat → Mallocs) : K (List Act) := do
  let text ← printf fmt (strs.map .str) ms
  pure (text.toList.map .write)

def println (s : List UInt8) : List Act := [.write s, .write (ascii "\n")]

/-- What a null-terminated array passes. -/
def argvOf (parts : StrTable) : List (List UInt8) := (parts.takeWhile (·.isSome)).filterMap id

namespace Kai

/-- The rest of `__builtin_cd`, once it has a target. -/
def changeDir (target : List UInt8) (a : KaiAnswers) (s : Kai) : K (List Act × Kai) := do
  let (wd, _) ← resolve target (s.environ.getenv pwdVar) s.wd a.resolve
  if a.isDir (cString wd) then
    pure ([], { wd := wd
                environ := if a.setenv then s.environ.setenv pwdVar (cString wd) else s.environ })
  else do
    let acts ← say cdNotDirFmt [target] (a.printf 2)
    pure (acts, { s with wd := wd })

def builtinCd (args : StrTable) (a : KaiAnswers) (s : Kai) : K (List Act × Kai) := do
  let arg ← args.get 1
  if arg = none ∨ arg = some [] then do
    let acts ← say cdNoArgsFmt [] (a.printf 1)
    match s.environ.getenv homeVar with
    | none => do
      let acts' ← say cdNoHomeFmt [] (a.printf 2)
      pure (acts ++ acts', s)
    | some home => do
      let (acts', s) ← s.changeDir home a
      pure (acts ++ acts', s)
  else s.changeDir (arg.getD []) a

/-- `__process_builtin`, which does not return from `exit`. -/
def processBuiltin (cmd : Option (List UInt8)) (args : StrTable) (a : KaiAnswers) (s : Kai) :
    K (List Act × Option (KaiCmd × Kai)) :=
  match cmd with
  | none => .ok ([], some (.empty, s))
  | some cmd =>
    if cmd.length = 0 then .ok ([], some (.empty, s))
    else if strcmp cmd cdName = 0 then do
      let (acts, s) ← s.builtinCd args a
      pure (acts, some (.builtin, s))
    else if strcmp cmd pwdName = 0 then do
      let acts ← say pwdFmt [(s.environ.getenv pwdVar).getD (cString s.wd)] (a.printf 1)
      pure (acts, some (.builtin, s))
    else if strcmp cmd exitName = 0 then .ok ([.exit 0], none)
    else .ok ([], some (.other, s))

/-- `case CMD_OTHER`. -/
def runProgram (parts : StrTable) (a : KaiAnswers) (s : Kai) : K (List Act) := do
  let bin ← parts.str 0
  let binPathLen := (ascii "/bin/").length + bin.length + 1
  if a.binPath then do
    let binPath ← snprintf (UInt32.ofNat binPathLen) binFmt [.str bin] a.snprintf
    let parts ← parts.put 0 (some binPath)
    let run := Act.exec binPath (argvOf parts) s.environ.entries
    if 0 ≤ a.pid then pure [run, .waitpid a.pid]
    else do
      let acts ← say notFoundFmt [bin, binPath] (a.printf 1)
      pure (run :: acts)
  else .error .wild

/-- The `switch` over what `__process_builtin` returns. -/
def handle (parts : StrTable) (a : KaiAnswers) (s : Kai) : K (List Act × Option Kai) := do
  let cmd ← parts.get 0
  let (out, next) ← s.processBuiltin cmd parts a
  match next with
  | none => pure (out, none)
  | some (.builtin, s) => pure (out, some s)
  | some (.empty, s) => pure (out ++ println [], some s)
  | some (.other, s) => do
    let run ← s.runProgram parts a
    pure (out ++ run, some s)

/-- One iteration of the loop of `main`, for the line that `read` returns. -/
def readLine (line : List UInt8) (a : KaiAnswers) (s : Kai) : K (List Act × Option Kai) := do
  let prompt ← say promptFmt [(s.environ.getenv pwdVar).getD (cString s.wd)] (a.printf 0)
  let acts := prompt ++ println []
  if a.table then do
    let parts ← commandParts line
    let (out, next) ← s.handle parts a
    pure (acts ++ out, next)
  else do
    let err ← say internalFmt [] (a.printf 1)
    pure (acts ++ err, some s)

/-- The loop of `main`, up to the end of the input. -/
def readLines : List (List UInt8 × KaiAnswers) → Kai → K (List Act × Option Kai)
  | [], s => .ok ([], some s)
  | (line, a) :: lines, s => do
    let (acts, next) ← s.readLine line a
    match next with
    | none => pure (acts, none)
    | some s => do
      let (acts', next) ← readLines lines s
      pure (acts ++ acts', next)

/-- `main` in front of its loop. The rest of the buffer is as `malloc` left it. -/
def start (environ : Environ) (rest : List UInt8) : Kai where
  wd := userDir ++ 0 :: rest
  environ := (environ.setenv pwdVar userDir).setenv homeVar userDir

end Kai

/-! ## The session -/

/-- What a line asks for. -/
inductive Command
  | empty
  | cd (target : Option (List UInt8))
  | pwd
  | exit
  | run (name : List UInt8) (args : List (List UInt8))

def commandOf : (words : List (List UInt8)) → Command
  | [] => .empty
  | name :: args =>
    if name = cdName then .cd args.head?
    else if name = pwdName then .pwd
    else if name = exitName then .exit
    else .run name args

/-- The words of a line, of which the shell takes 31. -/
def words (line : List UInt8) : List (List UInt8) := (fields (isDelim [space]) line).take kaiTokensMax

def command (line : List UInt8) : Command := commandOf (words line)

/-- The names of the working directory, and the environment. -/
structure Session where
  names : List (List UInt8)
  environ : Environ
  deriving DecidableEq

namespace Session

def prompt (t : Session) : List Act :=
  .write (ascii "(kai) " ++ (render t.names ++ ascii " > ")) :: println []

def changeDir (target : List UInt8) (isDir : List UInt8 → Bool) (t : Session) :
    List Act × Session :=
  let path := render (destination target t.names)
  if isDir path then
    ([], { names := destination target t.names, environ := t.environ.setenv pwdVar path })
  else ([.write (ascii "cd: '" ++ (target ++ ascii "' is not a directory or not found\n"))], t)

def run (name : List UInt8) (args : List (List UInt8)) (pid : Int) (t : Session) : List Act :=
  let path := ascii "/bin/" ++ name
  .exec path (path :: args) t.environ.entries ::
    if 0 ≤ pid then [.waitpid pid]
    else [.write (ascii "command '" ++ (name ++ (ascii "' not found in '" ++
      (path ++ ascii "' (default path)\n"))))]

def obey (a : KaiAnswers) (t : Session) : Command → List Act × Option Session
  | .empty => (println [], some t)
  | .cd none =>
    let (acts, t') := t.changeDir userDir a.isDir
    (.write cdNoArgsFmt :: acts, some t')
  | .cd (some target) =>
    let (acts, t') := t.changeDir target a.isDir
    (acts, some t')
  | .pwd => ([.write (ascii "Working directory: " ++ (render t.names ++ ascii "\n"))], some t)
  | .exit => ([.exit 0], none)
  | .run name args => (t.run name args a.pid, some t)

def readLine (line : List UInt8) (a : KaiAnswers) (t : Session) : List Act × Option Session :=
  let (acts, next) := t.obey a (command line)
  (t.prompt ++ acts, next)

def readLines : List (List UInt8 × KaiAnswers) → Session → List Act × Option Session
  | [], t => ([], some t)
  | (line, a) :: lines, t =>
    match t.readLine line a with
    | (acts, none) => (acts, none)
    | (acts, some t) =>
      let (acts', next) := readLines lines t
      (acts ++ acts', next)

def start (environ : Environ) : Session where
  names := [ascii "user"]
  environ := (environ.setenv pwdVar userDir).setenv homeVar userDir

end Session

/-! ## Words -/

variable {line target name : List UInt8} {args fs names : List (List UInt8)} {a : KaiAnswers}
  {parts : StrTable} {s : Kai} {t : Session} {strs : List (List UInt8)} {fmt e : List UInt8}

theorem Environ.getenv_setenv {e : Environ} {value : List UInt8} (hname : equals ∉ name) :
    (e.setenv name value).getenv = Function.update e.getenv name (some value) :=
  valueIn_put hname

theorem argvOf_starts (hparts : parts.Starts strs) (hnull : parts[strs.length]? = some none) :
    argvOf parts = strs := by
  have hsplit : parts = strs.map some ++ parts.drop strs.length := by
    conv_lhs => rw [← List.take_append_drop strs.length parts]
    rw [hparts]
  have hrest : parts.drop strs.length = none :: parts.drop (strs.length + 1) := by
    obtain ⟨hlt, hget⟩ := List.getElem?_eq_some_iff.1 hnull
    rw [List.drop_eq_getElem_cons hlt, hget]
  have htake : parts.takeWhile (·.isSome) = strs.map some := by
    rw [hsplit, hrest, List.takeWhile_append_of_pos (by simp)]
    simp
  rw [argvOf, htake, List.filterMap_map]
  exact List.filterMap_some

/-- The table has the words, and a null pointer behind them. -/
theorem commandParts_words (line : List UInt8) :
    ∃ parts, commandParts line = .ok parts ∧ parts.Starts (words line) ∧
      parts[(words line).length]? = some none := by
  unfold words
  have hpending := pending_strtok [space] none (some line)
  rw [Option.some_or, Option.getD_some] at hpending
  obtain ⟨parts, hloop, hparts, hlen⟩ := commandPartsLoop_spec hpending fields_fuel .nil
    (List.length_replicate (n := kaiTokensMax + 1) (a := none)) (Nat.zero_le _)
  rw [List.nil_append] at hloop hparts
  generalize hkept : (fields (isDelim [space]) line).take kaiTokensMax = kept at hloop hparts
  have hroom : kept.length < parts.length := by
    rw [← hkept, List.length_take, hlen]
    omega
  refine ⟨parts.set kept.length none, ?_, ?_, List.getElem?_set_self hroom⟩
  · unfold commandParts
    simp only
    rw [List.length_nil] at hloop
    rw [hloop, ok_bind, StrTable.put_ok hroom]
  · rw [StrTable.Starts, List.take_set_of_le le_rfl]
    exact hparts

/-! ## What fits -/

/-- Memory never runs out. -/
structure KaiAnswers.Granting (a : KaiAnswers) : Prop where
  printf : ∀ i j, (a.printf i j).Granting
  table : a.table = true
  resolve : a.resolve.Granting
  setenv : a.setenv = true
  binPath : a.binPath = true
  snprintf : a.snprintf.Granting

/-- The tables of `cd` and its buffer are large enough for the target. -/
structure Session.CdFits (t : Session) (target : List UInt8) : Prop where
  count : (pathNames target).length ≤ kaiTokensMax
  way : ∀ k, (entered target t.names k).length ≤ kaiTokensMax
  short : (render (destination target t.names)).length < 511

def Session.Fits (t : Session) : Command → Prop
  | .cd (some target) => t.CdFits target
  | _ => True

/-- Every line fits when its turn comes. -/
def Session.FitsAll : List (List UInt8 × KaiAnswers) → Session → Prop
  | [], _ => True
  | (line, a) :: lines, t => FitsInput line ∧ a.Granting ∧ t.Fits (command line) ∧
    ∀ t', (t.readLine line a).2 = some t' → FitsAll lines t'

/-- The shell has what the session has. -/
structure Kai.Shows (s : Kai) (t : Session) : Prop where
  wd : s.wd.length = wdMaxLen
  environ : s.environ = t.environ
  pwd : t.environ.getenv pwdVar = some (render t.names)
  home : t.environ.getenv homeVar = some userDir
  plain : ∀ name ∈ t.names, Plain name
  count : t.names.length ≤ kaiTokensMax
  short : (render t.names).length < 511

theorem userDir_fits (t : Session) : t.CdFits userDir := by
  have hsplit : userDir.splitOn slash = [[], [0x75, 0x73, 0x65, 0x72]] := by decide
  have hstart : (if userDir.head? = some slash then [] else t.names) = [] := if_pos rfl
  refine ⟨by rw [pathNames_userDir]; decide, fun k => ?_, ?_⟩
  · rw [entered, hstart, hsplit]
    refine length_foldl_enter_le.trans ?_
    rw [List.length_nil, List.length_take]
    exact (Nat.add_le_add_left (Nat.min_le_right _ _) _).trans (by decide)
  · rw [destination, hstart, hsplit]
    decide

/-- A `cd` that fits leads where the session goes. -/
theorem Kai.Shows.resolve {m : Mallocs} (hs : s.Shows t) (hfits : t.CdFits target)
    (hzero : 0 ∉ target) (hm : m.Granting) :
    ∃ out m', Kaku.resolve target (some (render t.names)) s.wd m = .ok (out, m') ∧
      cString out = render (destination target t.names) ∧ out.length = wdMaxLen := by
  have hdest : ∀ name ∈ destination target t.names, Plain name := destination_plain hs.plain hzero
  have hstart : startNames target (some (render t.names)) =
      if target.head? = some slash then [] else t.names := by
    rw [startNames, Option.getD_some, pathNames_plain hs.plain, ite_not]
  have hwalk : (pathNames target).foldl enterCapped (startNames target (some (render t.names))) =
      destination target t.names := by
    rw [hstart, foldl_pathNames enterCapped_nil]
    exact foldl_enterCapped hfits.way
  have hbase : (pathNames ((some (render t.names)).getD [slash])).length ≤ kaiTokensMax := by
    rw [Option.getD_some, pathNames_plain hs.plain]
    exact hs.count
  obtain ⟨names, comp, m', hresolve, hcomp, -, -, hnames⟩ :=
    resolve_spec s.wd (hm 0) hzero hfits.count hbase
  obtain rfl : names = destination target t.names := (hnames hm).trans hwalk
  have hshort := hfits.short
  obtain ⟨out, kept, hjoin, hlen, -, hout, hall⟩ := joinOut_spec hcomp hs.wd fun name hname => by
    obtain ⟨rest, hrest⟩ := List.head?_eq_some_iff.1 hname
    rw [hrest, render_cons, List.length_cons, List.length_append] at hshort
    rw [wdMaxLen]
    omega
  obtain rfl : kept = destination target t.names := hall (by rw [wdMaxLen]; omega)
  refine ⟨out, m', ?_, cString_eq hout (zero_not_mem_plain hdest), hlen⟩
  rw [hresolve, hjoin, ok_bind]

/-! ## Texts that are written -/

theorem say_expand {ms : Nat → Mallocs} (hzero : 0 ∉ fmt) (hstrs : ∀ s ∈ strs, 0 ∉ s)
    (hexpand : expand fmt strs = some e) (hnul : 0 ∉ e) (hlen : e.length < 16383)
    (hms : ∀ i, (ms i).Granting) : say fmt strs ms = .ok [.write e] := by
  rw [say, printf_expand hzero hstrs hexpand hnul hlen hms]
  rfl

/-- A text around one string. -/
theorem expand_around {x before behind : List UInt8} (hfmt : fmt = before ++ percent :: charS :: behind)
    (hbefore : percent ∉ before) (hbehind : percent ∉ behind) :
    expand fmt [x] = some (before ++ (x ++ behind)) := by
  rw [hfmt, expand_plain hbefore, expand_string, expand_end hbehind]
  rfl

theorem say_around {ms : Nat → Mallocs} {x before behind : List UInt8}
    (hfmt : fmt = before ++ percent :: charS :: behind) (hbefore : percent ∉ before ∧ 0 ∉ before)
    (hbehind : percent ∉ behind ∧ 0 ∉ behind) (hx : 0 ∉ x)
    (hlen : before.length + x.length + behind.length < 16383) (hms : ∀ i, (ms i).Granting) :
    say fmt [x] ms = .ok [.write (before ++ (x ++ behind))] := by
  have hzero : 0 ∉ fmt := by
    rw [hfmt]
    simp only [List.mem_append, List.mem_cons, not_or]
    exact ⟨hbefore.2, by decide, by decide, hbehind.2⟩
  refine say_expand hzero (by simpa using hx) (expand_around hfmt hbefore.1 hbehind.1) ?_ ?_ hms
  · simp only [List.mem_append, not_or]
    exact ⟨hbefore.2, hx, hbehind.2⟩
  · rw [List.length_append, List.length_append]
    omega

/-- A text without a string. -/
theorem say_plain {ms : Nat → Mallocs} (hfmt : percent ∉ fmt ∧ 0 ∉ fmt) (hlen : fmt.length < 16383)
    (hms : ∀ i, (ms i).Granting) : say fmt [] ms = .ok [.write fmt] :=
  say_expand hfmt.2 (by simp) (expand_end hfmt.1 []) hfmt.2 hlen hms

namespace Kai

/-! ## One line -/

theorem Shows.changeDir (hs : s.Shows t) (hfits : t.CdFits target) (hzero : 0 ∉ target)
    (hlen : target.length ≤ 512) (ha : a.Granting) :
    ∃ s', s.changeDir target a = .ok ((t.changeDir target a.isDir).1, s') ∧
      s'.Shows (t.changeDir target a.isDir).2 := by
  obtain ⟨out, m', hresolve, hout, houtLen⟩ := hs.resolve hfits hzero ha.resolve
  have hpwd : s.environ.getenv pwdVar = some (render t.names) := hs.environ ▸ hs.pwd
  have hdest : ∀ name ∈ destination target t.names, Plain name := destination_plain hs.plain hzero
  have hne : homeVar ≠ pwdVar := by decide
  have hequals : equals ∉ pwdVar := by decide
  rw [Kai.changeDir, hpwd, hresolve, ok_bind, Session.changeDir]
  simp only [hout]
  by_cases hdir : a.isDir (render (destination target t.names)) = true
  · rw [if_pos hdir, if_pos hdir, if_pos ha.setenv]
    refine ⟨_, rfl, houtLen, by rw [hs.environ], ?_, ?_, hdest, ?_, hfits.short⟩
    · rw [Environ.getenv_setenv hequals, Function.update_self]
    · rw [Environ.getenv_setenv hequals, Function.update_of_ne hne]
      exact hs.home
    · have hend := hfits.way (target.splitOn slash).length
      rwa [entered, List.take_length] at hend
  · have hsay := say_around (show cdNotDirFmt = ascii "cd: '" ++ percent :: charS ::
      ascii "' is not a directory or not found\n" by decide) (by decide) (by decide) hzero (by
        have hbefore : (ascii "cd: '").length = 5 := by decide
        have hbehind : (ascii "' is not a directory or not found\n").length = 34 := by decide
        omega) (ha.printf 2)
    rw [if_neg hdir, if_neg hdir, hsay, ok_bind]
    exact ⟨_, rfl, houtLen, hs.environ, hs.pwd, hs.home, hs.plain, hs.count, hs.short⟩

/-- What the session has next, the shell has next. -/
def Follows (s : Option Kai) (t : Option Session) : Prop := Option.Rel Shows s t

/-- A word of a line that fits. -/
def Word (name : List UInt8) : Prop := name ≠ [] ∧ 0 ∉ name ∧ name.length ≤ kaiStdinBufMax

theorem get_one (hparts : parts.Starts (name :: args))
    (hnull : parts[(name :: args).length]? = some none) : parts.get 1 = .ok args.head? := by
  cases args with
  | nil =>
    rw [StrTable.get, show parts[1]? = some none from hnull]
    rfl
  | cons arg args => exact hparts.get (by simp)

theorem Shows.builtinCd (hs : s.Shows t) (hparts : parts.Starts (cdName :: args))
    (hnull : parts[(cdName :: args).length]? = some none) (hargs : ∀ arg ∈ args, Word arg)
    (hfits : t.Fits (.cd args.head?)) (ha : a.Granting) :
    ∃ s', s.builtinCd parts a = .ok ((t.obey a (.cd args.head?)).1, s') ∧
      Follows (some s') (t.obey a (.cd args.head?)).2 := by
  rw [Kai.builtinCd, get_one hparts hnull, ok_bind]
  cases args with
  | nil =>
    obtain ⟨s', hchange, hs'⟩ :=
      hs.changeDir (userDir_fits t) (by decide) (by decide) ha
    have hsay : say cdNoArgsFmt [] (a.printf 1) = .ok [.write cdNoArgsFmt] :=
      say_plain (by decide) (by decide) (ha.printf 1)
    have hhome : s.environ.getenv homeVar = some userDir := hs.environ ▸ hs.home
    rw [if_pos (.inl rfl), hsay, ok_bind, hhome]
    simp only [hchange, ok_bind]
    exact ⟨s', rfl, .some hs'⟩
  | cons target args =>
    obtain ⟨hne, hzero, hlen⟩ := hargs target List.mem_cons_self
    obtain ⟨s', hchange, hs'⟩ := hs.changeDir hfits hzero hlen ha
    have hsome : ¬((target :: args).head? = none ∨ (target :: args).head? = some []) := by
      rw [List.head?_cons]
      rintro (h | h)
      · cases h
      · exact hne (Option.some_inj.1 h)
    rw [if_neg hsome]
    exact ⟨s', hchange, .some hs'⟩

theorem say_notFound {ms : Nat → Mallocs} {path : List UInt8} (hname : 0 ∉ name ∧ name.length ≤ 512)
    (hpath : 0 ∉ path ∧ path.length ≤ 517) (hms : ∀ i, (ms i).Granting) :
    say notFoundFmt [name, path] ms = .ok [.write (ascii "command '" ++ (name ++
      (ascii "' not found in '" ++ (path ++ ascii "' (default path)\n"))))] := by
  have hfmt : notFoundFmt = ascii "command '" ++ percent :: charS ::
      (ascii "' not found in '" ++ percent :: charS :: ascii "' (default path)\n") := by decide
  have hbefore : percent ∉ ascii "command '" ∧ 0 ∉ ascii "command '" ∧
      (ascii "command '").length = 9 := by decide
  have hmid : percent ∉ ascii "' not found in '" ∧ 0 ∉ ascii "' not found in '" ∧
      (ascii "' not found in '").length = 16 := by decide
  have hbehind : percent ∉ ascii "' (default path)\n" ∧ 0 ∉ ascii "' (default path)\n" ∧
      (ascii "' (default path)\n").length = 17 := by decide
  refine say_expand (by decide) (by simp [hname.1, hpath.1]) ?_ ?_ ?_ hms
  · rw [hfmt, expand_plain hbefore.1, expand_string, expand_around rfl hmid.1 hbehind.1]
    rfl
  · simp only [List.mem_append, not_or]
    exact ⟨hbefore.2.1, hname.1, hmid.2.1, hpath.1, hbehind.2.1⟩
  · simp only [List.length_append]
    omega

theorem snprintf_bin (hname : Word name) {m : Mallocs} (hm : m.Granting) :
    snprintf (UInt32.ofNat ((ascii "/bin/").length + name.length + 1)) binFmt [.str name] m =
      .ok (ascii "/bin/" ++ name) := by
  have hbin : percent ∉ ascii "/bin/" ∧ 0 ∉ ascii "/bin/" ∧ (ascii "/bin/").length = 5 := by decide
  have hfmt : binFmt = ascii "/bin/" ++ percent :: charS :: [] := by decide
  have hlen := hname.2.2
  rw [kaiStdinBufMax] at hlen
  have hexpand : expand binFmt [name] = some (ascii "/bin/" ++ name) := by
    rw [expand_around hfmt hbin.1 List.not_mem_nil, List.append_nil]
  change snprintf _ binFmt ([name].map .str) m = _
  refine snprintf_expand (by decide) (by simpa using hname.2.1) hexpand ?_ ?_ hm
  · rw [List.mem_append, not_or]
    exact ⟨hbin.2.1, hname.2.1⟩
  · rw [UInt32.toNat_ofNat_of_lt' (by rw [UInt32.size]; omega), List.length_append]
    omega

theorem starts_set_zero (hparts : parts.Starts (name :: args)) (bin : List UInt8) :
    StrTable.Starts (parts.set 0 (some bin)) (bin :: args) := by
  cases parts with
  | nil => cases hparts
  | cons p ps =>
    have htail := congrArg List.tail hparts
    rw [List.length_cons, List.take_succ_cons, List.tail_cons, List.map_cons, List.tail_cons] at htail
    rw [StrTable.Starts, List.set_cons_zero, List.length_cons, List.take_succ_cons, htail]
    rfl

/-- The program is started as `/bin/` and its name. -/
theorem Shows.runProgram (hs : s.Shows t) (hparts : parts.Starts (name :: args))
    (hnull : parts[(name :: args).length]? = some none) (hname : Word name) (ha : a.Granting) :
    s.runProgram parts a = .ok (t.run name args a.pid) := by
  have hroom : 0 < parts.length := hparts.length_le.trans_lt' (Nat.succ_pos _)
  have hput : StrTable.Starts (parts.set 0 (some (ascii "/bin/" ++ name)))
      ((ascii "/bin/" ++ name) :: args) := starts_set_zero hparts _
  have hlen := hname.2.2
  rw [kaiStdinBufMax] at hlen
  have hbin : 0 ∉ ascii "/bin/" ∧ (ascii "/bin/").length = 5 := by decide
  have hargv : argvOf (parts.set 0 (some (ascii "/bin/" ++ name))) = (ascii "/bin/" ++ name) :: args :=
    argvOf_starts hput (by rw [List.length_cons, List.getElem?_set_ne (by omega)]; exact hnull)
  rw [Kai.runProgram, hparts.str (Nat.succ_pos _), ok_bind]
  simp only [List.getElem_cons_zero]
  rw [if_pos ha.binPath, snprintf_bin hname ha.snprintf, ok_bind, StrTable.put_ok hroom, ok_bind]
  rw [Session.run]
  simp only [hargv, hs.environ]
  split
  · rfl
  · rw [say_notFound ⟨hname.2.1, hlen⟩ ⟨?_, ?_⟩ (ha.printf 1), ok_bind]
    · rfl
    · rw [List.mem_append, not_or]
      exact ⟨hbin.1, hname.2.1⟩
    · rw [List.length_append]
      omega

theorem Shows.prompt (hs : s.Shows t) (ha : a.Granting) :
    say promptFmt [(s.environ.getenv pwdVar).getD (cString s.wd)] (a.printf 0) =
      .ok [.write (ascii "(kai) " ++ (render t.names ++ ascii " > "))] := by
  have hshort := hs.short
  have hpwd : s.environ.getenv pwdVar = some (render t.names) := hs.environ ▸ hs.pwd
  rw [hpwd, Option.getD_some]
  refine say_around (show promptFmt = ascii "(kai) " ++ percent :: charS :: ascii " > " by decide)
    (by decide) (by decide) (zero_not_mem_plain hs.plain) ?_ (ha.printf 0)
  have hbefore : (ascii "(kai) ").length = 6 := by decide
  have hbehind : (ascii " > ").length = 3 := by decide
  omega

theorem Shows.pwdText (hs : s.Shows t) (ha : a.Granting) :
    say pwdFmt [(s.environ.getenv pwdVar).getD (cString s.wd)] (a.printf 1) =
      .ok [.write (ascii "Working directory: " ++ (render t.names ++ ascii "\n"))] := by
  have hshort := hs.short
  have hpwd : s.environ.getenv pwdVar = some (render t.names) := hs.environ ▸ hs.pwd
  rw [hpwd, Option.getD_some]
  refine say_around
    (show pwdFmt = ascii "Working directory: " ++ percent :: charS :: ascii "\n" by decide)
    (by decide) (by decide) (zero_not_mem_plain hs.plain) ?_ (ha.printf 1)
  have hbefore : (ascii "Working directory: ").length = 19 := by decide
  have hbehind : (ascii "\n").length = 1 := by decide
  omega

/-- What is done for the words is what they ask for. -/
theorem Shows.handle {ws : List (List UInt8)} (hs : s.Shows t) (hparts : parts.Starts ws)
    (hnull : parts[ws.length]? = some none) (hwords : ∀ w ∈ ws, Word w)
    (hfits : t.Fits (commandOf ws)) (ha : a.Granting) :
    ∃ next, s.handle parts a = .ok ((t.obey a (commandOf ws)).1, next) ∧
      Follows next (t.obey a (commandOf ws)).2 := by
  cases ws with
  | nil =>
    have hget : parts.get 0 = .ok none := by rw [StrTable.get, show parts[0]? = some none from hnull]
    rw [Kai.handle, hget, ok_bind]
    exact ⟨some s, rfl, .some hs⟩
  | cons name args =>
    have hget : parts.get 0 = .ok (some name) := hparts.get (Nat.succ_pos _)
    have hname := hwords name List.mem_cons_self
    have hargs : ∀ arg ∈ args, Word arg := fun arg harg => hwords arg (List.mem_cons_of_mem name harg)
    have hlen : name.length ≠ 0 := fun h => hname.1 (List.length_eq_zero_iff.1 h)
    rw [Kai.handle, hget, ok_bind, Kai.processBuiltin]
    simp only [if_neg hlen, strcmp_eq_zero hname.2.1 (show 0 ∉ cdName by decide),
      strcmp_eq_zero hname.2.1 (show 0 ∉ pwdName by decide),
      strcmp_eq_zero hname.2.1 (show 0 ∉ exitName by decide), commandOf] at hfits ⊢
    by_cases hcd : name = cdName
    · subst hcd
      rw [if_pos rfl] at hfits ⊢
      obtain ⟨s', hbuiltin, hs'⟩ := hs.builtinCd hparts hnull hargs hfits ha
      refine ⟨some s', ?_, ?_⟩
      · rw [if_pos rfl, hbuiltin]
        rfl
      · rwa [if_pos rfl]
    rw [if_neg hcd, if_neg hcd]
    by_cases hpwd : name = pwdName
    · rw [if_pos hpwd, if_pos hpwd, hs.pwdText ha]
      exact ⟨some s, rfl, .some hs⟩
    rw [if_neg hpwd, if_neg hpwd]
    by_cases hexit : name = exitName
    · rw [if_pos hexit, if_pos hexit]
      exact ⟨none, rfl, .none⟩
    rw [if_neg hexit, if_neg hexit]
    refine ⟨some s, ?_, .some hs⟩
    simp only [ok_bind, hs.runProgram hparts hnull hname ha]
    rfl

theorem word_of_mem_words (hline : FitsInput line) (hname : name ∈ words line) : Word name := by
  have hmem := List.mem_of_mem_take hname
  obtain ⟨hne, -, hlen⟩ := of_mem_fields hmem
  exact ⟨hne, fun h => hline.1 (mem_of_mem_fields hmem h), hlen.trans hline.2.le⟩

theorem Shows.readLine (hs : s.Shows t) (hline : FitsInput line) (hfits : t.Fits (command line))
    (ha : a.Granting) :
    ∃ next, s.readLine line a = .ok ((t.readLine line a).1, next) ∧
      Follows next (t.readLine line a).2 := by
  obtain ⟨parts, hcommand, hparts, hnull⟩ := commandParts_words line
  obtain ⟨next, hhandle, hnext⟩ :=
    hs.handle hparts hnull (fun _ hname => word_of_mem_words hline hname) hfits ha
  refine ⟨next, ?_, hnext⟩
  rw [Kai.readLine, hs.prompt ha, ok_bind]
  simp only [if_pos ha.table, hcommand, ok_bind, hhandle]
  rfl

/-! ## All lines -/

theorem start_shows (environ : Environ) {rest : List UInt8} (hrest : rest.length = 506) :
    (Kai.start environ rest).Shows (Session.start environ) := by
  have hpwd : equals ∉ pwdVar := by decide
  have hhome : equals ∉ homeVar := by decide
  have hne : pwdVar ≠ homeVar := by decide
  refine ⟨?_, rfl, ?_, ?_, ?_, ?_, ?_⟩
  · rw [Kai.start, List.length_append, List.length_cons, hrest]
    rfl
  · rw [Session.start, Environ.getenv_setenv hhome, Function.update_of_ne hne,
      Environ.getenv_setenv hpwd, Function.update_self]
    exact congrArg some (show userDir = render [ascii "user"] by decide)
  · rw [Session.start, Environ.getenv_setenv hhome, Function.update_self]
  · intro name hname
    rw [Session.start, List.mem_singleton] at hname
    rw [hname, Plain]
    decide
  · exact show [ascii "user"].length ≤ kaiTokensMax by decide
  · exact show (render [ascii "user"]).length < 511 by decide

theorem Shows.readLines {lines : List (List UInt8 × KaiAnswers)} (hs : s.Shows t)
    (hfits : t.FitsAll lines) :
    ∃ next, s.readLines lines = .ok ((t.readLines lines).1, next) ∧
      Follows next (t.readLines lines).2 := by
  induction lines generalizing s t with
  | nil => exact ⟨some s, rfl, .some hs⟩
  | cons head lines ih =>
    obtain ⟨line, a⟩ := head
    obtain ⟨hline, ha, hfit, hrest⟩ := hfits
    obtain ⟨next, hread, hnext⟩ := hs.readLine hline hfit ha
    rw [Kai.readLines, hread, ok_bind, Session.readLines]
    rcases hturn : t.readLine line a with ⟨acts, _ | t'⟩
    · rw [hturn] at hnext
      cases hnext
      exact ⟨none, rfl, .none⟩
    · rw [hturn] at hnext hrest
      cases hnext with
      | some hs' =>
        obtain ⟨next, hreads, hnext⟩ := ih hs' (hrest t' rfl)
        refine ⟨next, ?_, hnext⟩
        simp only [hreads, ok_bind]
        rfl

/-- The shell does for every line what the session does. -/
theorem kai_session {environ : Environ} {rest : List UInt8} (hrest : rest.length = 506)
    {lines : List (List UInt8 × KaiAnswers)} (hfits : (Session.start environ).FitsAll lines) :
    ∃ next, (Kai.start environ rest).readLines lines =
        .ok (((Session.start environ).readLines lines).1, next) ∧
      Follows next ((Session.start environ).readLines lines).2 :=
  (start_shows environ hrest).readLines hfits

/-- A line of words, with a space between each two. -/
theorem words_join {ws : List (List UInt8)} (hws : ∀ w ∈ ws, w ≠ [] ∧ space ∉ w)
    (hcount : ws.length ≤ kaiTokensMax) : words ([space].intercalate ws) = ws := by
  have hspace : isDelim [space] = (· == space) := by
    funext c
    rw [Bool.eq_iff_iff]
    simp [isDelim]
  rw [words, hspace, fields_intercalate hws, List.take_of_length_le hcount]

/-- Every path is a directory, and every program is process 7. -/
def granting : KaiAnswers where
  printf _ _ _ := true
  table := true
  resolve _ := true
  setenv := true
  binPath := true
  snprintf _ := true
  isDir _ := true
  pid := 7

theorem granting_grants : granting.Granting :=
  ⟨fun _ _ _ => rfl, rfl, fun _ => rfl, rfl, rfl, fun _ => rfl⟩

def noEnviron : Environ := ⟨[], List.forall_mem_nil _, List.nodup_nil⟩

/-- `cd ..`, `ls -l` and `exit`. -/
theorem kai_session_up :
    ∃ next, (Kai.start noEnviron (List.replicate 506 0)).readLines
        [(ascii "cd ..", granting), (ascii "ls -l", granting), (ascii "exit", granting)] =
      .ok ([.write (ascii "(kai) /user > "), .write [], .write (ascii "\n"),
        .write (ascii "(kai) / > "), .write [], .write (ascii "\n"),
        .exec (ascii "/bin/ls") [ascii "/bin/ls", ascii "-l"] [ascii "HOME=/user", ascii "PWD=/"],
        .waitpid 7,
        .write (ascii "(kai) / > "), .write [], .write (ascii "\n"), .exit 0], next) ∧
      Follows next none := by
  have hcd : command (ascii "cd ..") = .cd (some dotdot) := by
    have hline : ascii "cd .." = [space].intercalate [cdName, dotdot] := by decide
    rw [command, hline, words_join (by decide) (by decide)]
    rfl
  have hls : command (ascii "ls -l") = .run (ascii "ls") [ascii "-l"] := by
    have hline : ascii "ls -l" = [space].intercalate [ascii "ls", ascii "-l"] := by decide
    rw [command, hline, words_join (by decide) (by decide), commandOf, if_neg (by decide),
      if_neg (by decide), if_neg (by decide)]
  have hexit : command (ascii "exit") = .exit := by
    have hline : ascii "exit" = [space].intercalate [exitName] := by decide
    rw [command, hline, words_join (by decide) (by decide)]
    rfl
  have hfits : (Session.start noEnviron).CdFits dotdot := by
    refine ⟨(length_fields_le _).trans (by decide), fun k => ?_, by decide⟩
    refine length_foldl_enter_le.trans ?_
    rw [List.length_take]
    exact (Nat.add_le_add_left (Nat.min_le_right _ _) _).trans (by decide)
  have hrun : (Session.start noEnviron).readLines
      [(ascii "cd ..", granting), (ascii "ls -l", granting), (ascii "exit", granting)] =
      ([.write (ascii "(kai) /user > "), .write [], .write (ascii "\n"),
        .write (ascii "(kai) / > "), .write [], .write (ascii "\n"),
        .exec (ascii "/bin/ls") [ascii "/bin/ls", ascii "-l"] [ascii "HOME=/user", ascii "PWD=/"],
        .waitpid 7,
        .write (ascii "(kai) / > "), .write [], .write (ascii "\n"), .exit 0], none) := by
    simp only [Session.readLines, Session.readLine, hcd, hls, hexit]
    decide
  have hsession := @kai_session noEnviron (List.replicate 506 0) List.length_replicate
    [(ascii "cd ..", granting), (ascii "ls -l", granting), (ascii "exit", granting)] ?_
  · rwa [hrun] at hsession
  · refine ⟨by unfold FitsInput; decide, granting_grants, by rwa [hcd], fun _ _ => ?_⟩
    refine ⟨by unfold FitsInput; decide, granting_grants, by rw [hls]; exact trivial, fun _ _ => ?_⟩
    exact ⟨by unfold FitsInput; decide, granting_grants, by rw [hexit]; exact trivial, fun _ _ => trivial⟩

end Kai

end Kaku
