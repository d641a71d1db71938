-- SUMMARY: The built-in `cd` of the shell: how a target is resolved against the working directory.
import Kaku.User.Strings
import Kaku.Fs.Path
import Mathlib.Data.List.Infix

/-!
# The built-in `cd`

`__builtin_cd__resolve` of `user_fs/src/kai.c`. The names of the working directory and of
the target are put into a table one after the other, and joined in a buffer. The strings
that are freed on the way are not used again.
-/

namespace Kaku

def kaiTokensMax : Nat := 31
def wdMaxLen : Nat := 512

def dot : List UInt8 := [0x2E]
def dotdot : List UInt8 := [0x2E, 0x2E]

/-! ## Buffers -/

def putByte (out : List UInt8) (k : Nat) (b : UInt8) : K (List UInt8) :=
  if k < out.length then .ok (out.set k b) else .error .wild

/-- The bytes of a string, from `out[used]` on. -/
def putAll : List UInt8 → (used : Nat) → (out : List UInt8) → K (Nat × List UInt8)
  | [], used, out => .ok (used, out)
  | c :: s, used, out => do
    let out ← putByte out used c
    putAll s (used + 1) out

/-- The string that starts in the buffer. -/
def cString (out : List UInt8) : List UInt8 := out.takeWhile (· ≠ 0)

/-! ## `__builtin_cd__resolve` -/

/-- The loop over the names of the working directory. -/
def copyBase (base : StrTable) : (left i n : Nat) → StrTable → K (Nat × StrTable)
  | 0, _, n, comp => .ok (n, comp)
  | left + 1, i, n, comp =>
    if n < kaiTokensMax then do
      let name ← base.get i
      let comp ← comp.put n name
      copyBase base left (i + 1) (n + 1) comp
    else .ok (n, comp)

/-- The names that a relative target starts from. -/
def resolveBase (pwd : Option (List UInt8)) (comp : StrTable) (m : Mallocs) :
    K (Nat × StrTable × Mallocs) :=
  match callocTable kaiTokensMax m with
  | (none, m) => .ok (0, comp, m)
  | (some base, m) => do
    let (bn, base, m) ← strsplit (pwd.getD [slash]) base [slash] m
    let (n, comp) ← copyBase base bn.toNat 0 0 comp
    pure (n, comp, m)

/-- An absolute target starts from no names. -/
def resolveStart (target : List UInt8) (pwd : Option (List UInt8)) (comp : StrTable) (m : Mallocs) :
    K (Nat × StrTable × Mallocs) :=
  if target.head? ≠ some slash then resolveBase pwd comp m else .ok (0, comp, m)

/-- The loop over the names of the target. -/
def applyNames (tc : StrTable) : (left i n : Nat) → StrTable → K (Nat × StrTable)
  | 0, _, n, comp => .ok (n, comp)
  | left + 1, i, n, comp => do
    let name ← tc.str i
    if strcmp name dot = 0 then applyNames tc left (i + 1) n comp
    else if strcmp name dotdot = 0 then
      if 0 < n then do
        let _ ← comp.get (n - 1)
        applyNames tc left (i + 1) (n - 1) comp
      else applyNames tc left (i + 1) n comp
    else if n < kaiTokensMax then do
      let comp ← comp.put n (some name)
      applyNames tc left (i + 1) (n + 1) comp
    else applyNames tc left (i + 1) n comp

def resolveTarget (target : List UInt8) (n : Nat) (comp : StrTable) (m : Mallocs) :
    K (Nat × StrTable × Mallocs) :=
  match callocTable kaiTokensMax m with
  | (none, m) => .ok (n, comp, m)
  | (some tc, m) => do
    let (tn, tc, m) ← strsplit target tc [slash] m
    let (n, comp) ← applyNames tc tn.toNat 0 n comp
    pure (n, comp, m)

/-- The loop that joins the names. A name that does not fit is left out. -/
def joinNames (comp : StrTable) : (left i used : Nat) → (out : List UInt8) → K (List UInt8)
  | 0, _, _, out => .ok out
  | left + 1, i, used, out => do
    let name ← comp.str i
    if used + 1 + name.length < wdMaxLen then do
      let (used, out) ← if 0 < i then putAll [slash] used out else pure (used, out)
      let (used, out) ← putAll name used out
      let out ← putByte out used 0
      joinNames comp left (i + 1) used out
    else joinNames comp left (i + 1) used out

def joinOut (n : Nat) (comp : StrTable) (out : List UInt8) : K (List UInt8) := do
  let out ← putByte out 0 slash
  let out ← joinNames comp n 0 1 out
  if n = 0 then do
    let out ← putByte out 0 slash
    putByte out 1 0
  else pure out

def resolve (target : List UInt8) (pwd : Option (List UInt8)) (out : List UInt8) (m : Mallocs) :
    K (List UInt8 × Mallocs) :=
  match callocTable kaiTokensMax m with
  | (none, m) => do
    let out ← putByte out 0 0
    pure (out, m)
  | (some comp, m) => do
    let (n, comp, m) ← resolveStart target pwd comp m
    let (n, comp, m) ← resolveTarget target n comp m
    let out ← joinOut n comp out
    pure (out, m)

/-! ## Filling the buffer -/

variable {out pre s target : List UInt8} {b : UInt8} {comp tc base : StrTable}
  {names cs fs : List (List UInt8)} {i n left : Nat} {m : Mallocs} {pwd : Option (List UInt8)}

theorem put_prefix (hpre : pre <+: out) (hlen : pre.length < out.length) :
    ∃ out', putByte out pre.length b = .ok out' ∧ out'.length = out.length ∧ pre ++ [b] <+: out' := by
  refine ⟨_, if_pos hlen, List.length_set, ?_⟩
  obtain ⟨rest, rfl⟩ := hpre
  rw [List.length_append] at hlen
  obtain ⟨c, rest, rfl⟩ := List.exists_cons_of_length_pos (show 0 < rest.length by omega)
  refine ⟨rest, ?_⟩
  rw [List.set_append_right _ _ le_rfl, Nat.sub_self, List.set_cons_zero, List.append_assoc]
  rfl

theorem putAll_prefix (hpre : pre <+: out) (hlen : pre.length + s.length ≤ out.length) :
    ∃ out', putAll s pre.length out = .ok (pre.length + s.length, out') ∧
      out'.length = out.length ∧ pre ++ s <+: out' := by
  induction s generalizing pre out with
  | nil => exact ⟨out, rfl, rfl, by rwa [List.append_nil]⟩
  | cons c s ih =>
    rw [List.length_cons] at hlen
    obtain ⟨out₁, hput, hlen₁, hpre₁⟩ := put_prefix (b := c) hpre (by omega)
    have hroom : (pre ++ [c]).length + s.length ≤ out₁.length := by
      rw [List.length_append, List.length_singleton, hlen₁]
      omega
    obtain ⟨out₂, hall, hlen₂, hpre₂⟩ := ih hpre₁ hroom
    refine ⟨out₂, ?_, hlen₂.trans hlen₁, ?_⟩
    · unfold putAll
      rw [List.length_append, List.length_singleton] at hall
      rw [hput, ok_bind, hall, List.length_cons, Nat.add_assoc, Nat.add_comm 1]
    · rwa [List.append_assoc] at hpre₂

/-- A name and the zero byte behind it. -/
theorem putName_prefix (hpre : pre <+: out) (hlen : pre.length + s.length < out.length) :
    ∃ out₁ out₂, putAll s pre.length out = .ok (pre.length + s.length, out₁) ∧
      putByte out₁ (pre.length + s.length) 0 = .ok out₂ ∧ out₂.length = out.length ∧
      pre ++ s ++ [0] <+: out₂ := by
  obtain ⟨out₁, hname, hlen₁, hpre₁⟩ := putAll_prefix hpre hlen.le
  have hroom : (pre ++ s).length < out₁.length := by rwa [List.length_append, hlen₁]
  obtain ⟨out₂, hzero, hlen₂, hpre₂⟩ := put_prefix (b := 0) hpre₁ hroom
  rw [List.length_append] at hzero
  exact ⟨out₁, out₂, hname, hzero, hlen₂.trans hlen₁, hpre₂⟩

theorem cString_eq (hpre : pre ++ [0] <+: out) (hzero : 0 ∉ pre) : cString out = pre := by
  obtain ⟨rest, rfl⟩ := hpre
  have hall : ∀ c ∈ pre, decide (c ≠ 0) = true := by
    intro c hc
    have hne : c ≠ 0 := fun h => hzero (h ▸ hc)
    simpa using hne
  unfold cString
  rw [List.append_assoc, List.takeWhile_append_of_pos hall]
  simp

/-! ## The names -/

theorem isDelim_slash : isDelim [slash] = (· == slash) := by
  funext c
  rw [Bool.eq_iff_iff]
  simp [isDelim]

theorem copyBase_spec (hbase : base.Starts fs) (hcomp : comp.Starts (fs.take i))
    (hlen : comp.length = kaiTokensMax) (hfs : fs.length ≤ kaiTokensMax)
    (hleft : i + left = fs.length) :
    ∃ comp', copyBase base left i i comp = .ok (fs.length, comp') ∧ comp'.Starts fs ∧
      comp'.length = kaiTokensMax := by
  induction left generalizing i comp with
  | zero =>
    obtain rfl : i = fs.length := hleft
    rw [List.take_length] at hcomp
    exact ⟨comp, rfl, hcomp, hlen⟩
  | succ left ih =>
    have hi : i < fs.length := by omega
    have htake : (fs.take i).length = i := List.length_take_of_le hi.le
    have hput := hcomp.put (s := fs[i]) (by omega)
    rw [htake, List.take_concat_get' fs i hi] at hput
    obtain ⟨comp', hcopy, hrest⟩ := ih hput (by rw [List.length_set, hlen]) (by omega)
    refine ⟨comp', ?_, hrest⟩
    unfold copyBase
    have hroom : i < kaiTokensMax := by omega
    rw [if_pos hroom, hbase.get hi, ok_bind, StrTable.put_ok (by omega), ok_bind, hcopy]

/-- What a name of the target does to the names so far, where there is room for 31. -/
def enterCapped (names : List (List UInt8)) (name : List UInt8) : List (List UInt8) :=
  if name = [] ∨ name = dot then names
  else if name = dotdot then names.dropLast
  else if names.length < kaiTokensMax then names ++ [name]
  else names

theorem applyNames_spec (htc : tc.Starts fs) (hcomp : comp.Starts names)
    (hlen : comp.length = kaiTokensMax) (hfs : ∀ f ∈ fs, f ≠ [] ∧ 0 ∉ f)
    (hleft : i + left = fs.length) :
    ∃ comp', applyNames tc left i names.length comp =
        .ok (((fs.drop i).foldl enterCapped names).length, comp') ∧
      comp'.Starts ((fs.drop i).foldl enterCapped names) ∧ comp'.length = kaiTokensMax := by
  induction left generalizing i names comp with
  | zero =>
    obtain rfl : i = fs.length := hleft
    rw [List.drop_length]
    exact ⟨comp, rfl, hcomp, hlen⟩
  | succ left ih =>
    have hi : i < fs.length := by omega
    obtain ⟨hne, hzero⟩ := hfs _ (List.getElem_mem hi)
    have hdot : strcmp fs[i] dot = 0 ↔ fs[i] = dot := strcmp_eq_zero hzero (by decide)
    have hdotdot : strcmp fs[i] dotdot = 0 ↔ fs[i] = dotdot := strcmp_eq_zero hzero (by decide)
    have hnext : i + 1 + left = fs.length := by omega
    rw [List.drop_eq_getElem_cons hi, List.foldl_cons]
    unfold applyNames
    rw [htc.str hi, ok_bind]
    unfold enterCapped
    -- the three cases of a name, in the order of the code
    by_cases h₁ : fs[i] = dot
    · rw [if_pos (hdot.2 h₁), if_pos (.inr h₁)]
      exact ih hcomp hlen hnext
    · have h₁' : ¬ (fs[i] = [] ∨ fs[i] = dot) := by
        rintro (h | h)
        · exact hne h
        · exact h₁ h
      rw [if_neg (mt hdot.1 h₁), if_neg h₁']
      by_cases h₂ : fs[i] = dotdot
      · rw [if_pos (hdotdot.2 h₂), if_pos h₂]
        have hdrop := ih hcomp.dropLast hlen hnext
        rw [List.length_dropLast] at hdrop
        rcases Nat.eq_zero_or_pos names.length with hempty | hpos
        · rw [if_neg (by omega)]
          rw [hempty, Nat.zero_sub] at hdrop
          rwa [hempty]
        · rw [if_pos hpos, hcomp.get (by omega), ok_bind]
          exact hdrop
      · rw [if_neg (mt hdotdot.1 h₂), if_neg h₂]
        by_cases h₃ : names.length < kaiTokensMax
        · rw [if_pos h₃, if_pos h₃, StrTable.put_ok (by omega), ok_bind]
          have hput := ih (hcomp.put (s := fs[i]) (by omega)) (by rw [List.length_set, hlen]) hnext
          rw [List.length_append, List.length_singleton] at hput
          exact hput
        · rw [if_neg h₃, if_neg h₃]
          exact ih hcomp hlen hnext

/-! ## Joining -/

/-- The names behind the first one, with the slashes in front of them. -/
def tail (names : List (List UInt8)) : List UInt8 := names.flatMap fun name => slash :: name

/-- The path that has these names. -/
def render (names : List (List UInt8)) : List UInt8 := slash :: [slash].intercalate names

theorem render_cons (name : List UInt8) (names : List (List UInt8)) :
    render (name :: names) = slash :: (name ++ tail names) := by
  unfold render
  congr 1
  induction names generalizing name with
  | nil => simp [tail]
  | cons name' names ih =>
    have hjoin : [slash].intercalate (name :: name' :: names) =
        name ++ slash :: [slash].intercalate (name' :: names) := by
      simp [List.intercalate]
    rw [hjoin, ih]
    simp [tail]

/-- Behind the first name the joined path is always ended by a zero byte. Names may be left
out, but none is if all fit. -/
theorem joinNames_spec (hcomp : comp.Starts names) (hpos : 0 < i) (hleft : i + left = names.length)
    (hlen : out.length = wdMaxLen) (hpre : pre ++ [0] <+: out) :
    ∃ out' kept, joinNames comp left i pre.length out = .ok out' ∧ out'.length = wdMaxLen ∧
      kept.Sublist (names.drop i) ∧ pre ++ tail kept ++ [0] <+: out' ∧
      (pre.length + (tail (names.drop i)).length < wdMaxLen → kept = names.drop i) := by
  induction left generalizing i pre out with
  | zero =>
    obtain rfl : i = names.length := hleft
    rw [List.drop_length]
    exact ⟨out, [], rfl, hlen, List.Sublist.refl _, by simpa [tail] using hpre, fun _ => rfl⟩
  | succ left ih =>
    have hi : i < names.length := by omega
    have hnext : i + 1 + left = names.length := by omega
    have htail : (tail (names.drop i)).length =
        1 + names[i].length + (tail (names.drop (i + 1))).length := by
      rw [List.drop_eq_getElem_cons hi, tail, List.flatMap_cons, List.length_append,
        List.length_cons]
      simp only [tail]
      omega
    unfold joinNames
    rw [hcomp.str hi, ok_bind]
    -- a name that does not fit is left out, and the ones behind it are tried
    by_cases hfits : pre.length + 1 + names[i].length < wdMaxLen
    · have hpre' : pre <+: out := (List.prefix_append pre [0]).trans hpre
      obtain ⟨out₁, hslash, hlen₁, hpre₁⟩ := putAll_prefix (s := [slash]) hpre' (by
        rw [List.length_singleton]
        omega)
      obtain ⟨out₂, out₃, hname, hzero, hlen₃, hpre₃⟩ := putName_prefix (s := names[i]) hpre₁ (by
        rw [List.length_append, List.length_singleton]
        omega)
      rw [List.length_append, List.length_singleton] at hname hzero
      obtain ⟨out', kept, hjoin, hlen', hsub, hout, hall⟩ :=
        ih (show 0 < i + 1 by omega) hnext (by omega) hpre₃
      rw [List.length_append, List.length_append, List.length_singleton] at hjoin hall
      refine ⟨out', names[i] :: kept, ?_, hlen', ?_, ?_, fun hroom => ?_⟩
      · rw [if_pos hfits, if_pos hpos, hslash, ok_bind]
        simp only [List.length_singleton]
        rw [hname, ok_bind]
        simp only
        rw [hzero, ok_bind, hjoin]
      · rw [List.drop_eq_getElem_cons hi]
        exact hsub.cons_cons _
      · simpa [tail, List.append_assoc] using hout
      · rw [List.drop_eq_getElem_cons hi, hall (by omega)]
    · obtain ⟨out', kept, hjoin, hlen', hsub, hout, -⟩ := ih (show 0 < i + 1 by omega) hnext hlen hpre
      refine ⟨out', kept, ?_, hlen', ?_, hout, fun hroom => ?_⟩
      · rw [if_neg hfits, hjoin]
      · rw [List.drop_eq_getElem_cons hi]
        exact hsub.cons _
      · omega

/-- The buffer holds the path of the names, as long as the first one fits. -/
theorem joinOut_spec (hcomp : comp.Starts names) (hlen : out.length = wdMaxLen)
    (hfirst : ∀ name ∈ names.head?, name.length + 2 < wdMaxLen) :
    ∃ out' kept, joinOut names.length comp out = .ok out' ∧ out'.length = wdMaxLen ∧
      kept.Sublist names ∧ render kept ++ [0] <+: out' ∧
      ((render names).length < wdMaxLen → kept = names) := by
  rw [wdMaxLen] at hlen hfirst ⊢
  unfold joinOut
  obtain ⟨out₁, hslash, hlen₁, hpre₁⟩ := put_prefix (b := slash) (List.nil_prefix (l := out)) (by
    rw [List.length_nil]
    omega)
  rw [List.length_nil] at hslash
  rw [hslash, ok_bind]
  cases names with
  | nil =>
    obtain ⟨out₂, hagain, hlen₂, hpre₂⟩ := put_prefix (b := slash) (List.nil_prefix (l := out₁)) (by
      rw [List.length_nil]
      omega)
    obtain ⟨out₃, hzero, hlen₃, hpre₃⟩ := put_prefix (b := 0) hpre₂ (by
      rw [List.length_append, List.length_nil, List.length_singleton]
      omega)
    rw [List.length_nil] at hagain
    refine ⟨out₃, [], ?_, by omega, List.Sublist.refl _, ?_, fun _ => rfl⟩
    · simp only [List.length_nil, joinNames, ok_bind, if_true]
      rw [hagain, ok_bind]
      exact hzero
    · simpa [render] using hpre₃
  | cons name rest =>
    -- the first name has its slash already
    have hroom := hfirst name rfl
    have hstr : comp.str 0 = .ok name := hcomp.str (show 0 < (name :: rest).length by simp)
    have hfits : 1 + 1 + name.length < 512 := by omega
    have hcopy : ([] ++ [slash] : List UInt8).length + name.length < out₁.length := by
      rw [List.length_append, List.length_nil, List.length_singleton]
      omega
    obtain ⟨out₂, out₃, hname, hzero, hlen₃, hpre₃⟩ := putName_prefix hpre₁ hcopy
    have hcount : 1 + rest.length = (name :: rest).length := by
      rw [List.length_cons]
      omega
    obtain ⟨out', kept, hjoin, hlen', hsub, hout, hall⟩ :=
      joinNames_spec hcomp Nat.one_pos hcount (by rw [wdMaxLen]; omega) hpre₃
    rw [wdMaxLen] at hlen' hall
    refine ⟨out', name :: kept, ?_, hlen', ?_, ?_, fun hshort => ?_⟩
    · simp only [List.nil_append, List.length_append, List.length_singleton] at hname hzero hjoin
      rw [List.length_cons]
      unfold joinNames
      rw [hstr, ok_bind, wdMaxLen, if_pos hfits]
      simp only [lt_irrefl, if_false, pure, Except.pure, ok_bind, hname, hzero, hjoin]
      simp
    · exact hsub.cons_cons _
    · rw [render_cons]
      simpa [List.append_assoc] using hout
    · rw [render_cons, List.length_cons, List.length_append] at hshort
      rw [hall ?_]
      · rfl
      · simp only [List.nil_append, List.length_append, List.length_singleton]
        simp only [List.drop_succ_cons, List.drop_zero]
        omega

/-! ## The names of a path -/

/-- The names of a path. -/
def pathNames (path : List UInt8) : List (List UInt8) := fields (isDelim [slash]) path

theorem of_mem_pathNames {name : List UInt8} (hname : name ∈ pathNames target) :
    name ≠ [] ∧ slash ∉ name ∧ name.length ≤ target.length ∧ (0 ∉ target → 0 ∉ name) := by
  obtain ⟨hne, hsep, hlen⟩ := of_mem_fields hname
  refine ⟨hne, fun h => hsep slash h ?_, hlen, fun hzero h => hzero (mem_of_mem_fields hname h)⟩
  rw [isDelim_slash]
  exact beq_self_eq_true slash

theorem pathNames_render (hnames : ∀ name ∈ names, name ≠ [] ∧ slash ∉ name) :
    pathNames (render names) = names := by
  unfold pathNames render
  rw [isDelim_slash, fields_cons_sep (by simp)]
  exact fields_intercalate hnames

theorem pathNames_root : pathNames [slash] = [] := @pathNames_render [] (by simp)

theorem zero_not_mem_render (hnames : ∀ name ∈ names, 0 ∉ name) : 0 ∉ render names := by
  have htail : ∀ names : List (List UInt8), (∀ name ∈ names, 0 ∉ name) → 0 ∉ tail names := by
    intro names hnames h
    obtain ⟨name, hname, hin⟩ := List.mem_flatMap.1 h
    rcases List.mem_cons.1 hin with heq | hin
    · exact absurd heq (by decide)
    · exact hnames name hname hin
  cases names with
  | nil => decide
  | cons name names =>
    rw [render_cons]
    intro h
    rcases List.mem_cons.1 h with heq | h
    · exact absurd heq (by decide)
    · rcases List.mem_append.1 h with h | h
      · exact hnames name List.mem_cons_self h
      · exact htail names (fun name hname => hnames name (List.mem_cons_of_mem _ hname)) h

/-- Without memory a relative target starts from the root. -/
theorem resolveBase_spec (hcomp : comp.length = kaiTokensMax)
    (hcount : (pathNames (pwd.getD [slash])).length ≤ kaiTokensMax) :
    ∃ names comp' m', resolveBase pwd comp m = .ok (names.length, comp', m') ∧
      comp'.Starts names ∧ comp'.length = kaiTokensMax ∧
      (names = [] ∨ names = pathNames (pwd.getD [slash])) ∧
      (m.Granting → names = pathNames (pwd.getD [slash]) ∧ m'.Granting) := by
  unfold resolveBase callocTable
  by_cases hgrant : m 0 = true
  · rw [if_pos hgrant]
    simp only
    obtain ⟨r, base, m', hsplit, hr, hm'⟩ := strsplit_spec m.next
      (show (fields (isDelim [slash]) (pwd.getD [slash])).length ≤
          (List.replicate kaiTokensMax none).length by
        rw [List.length_replicate]
        exact hcount)
    rw [hsplit, ok_bind]
    rcases hr with rfl | ⟨rfl, hbase⟩
    · refine ⟨[], comp, m', rfl, .nil, hcomp, .inl rfl, fun hm => ?_⟩
      exact absurd rfl (hm' hm.next).1
    · obtain ⟨comp', hcopy, hstarts, hlen⟩ := copyBase_spec (i := 0) hbase .nil hcomp hcount
        (Nat.zero_add _)
      refine ⟨_, comp', m', ?_, hstarts, hlen, .inr rfl, fun hm => ⟨rfl, (hm' hm.next).2⟩⟩
      simp only [Int.toNat_natCast]
      rw [hcopy, ok_bind]
      rfl
  · rw [if_neg hgrant]
    exact ⟨[], comp, m.next, rfl, .nil, hcomp, .inl rfl, fun hm => absurd (hm 0) hgrant⟩

theorem resolveTarget_spec (hstarts : comp.Starts names) (hcomp : comp.length = kaiTokensMax)
    (hzero : 0 ∉ target) (hcount : (pathNames target).length ≤ kaiTokensMax) :
    ∃ names' comp' m', resolveTarget target names.length comp m = .ok (names'.length, comp', m') ∧
      comp'.Starts names' ∧ comp'.length = kaiTokensMax ∧
      (names' = names ∨ names' = (pathNames target).foldl enterCapped names) ∧
      (m.Granting → names' = (pathNames target).foldl enterCapped names) := by
  unfold resolveTarget callocTable
  by_cases hgrant : m 0 = true
  · rw [if_pos hgrant]
    simp only
    obtain ⟨r, tc, m', hsplit, hr, hm'⟩ := strsplit_spec m.next
      (show (fields (isDelim [slash]) target).length ≤ (List.replicate kaiTokensMax none).length by
        rw [List.length_replicate]
        exact hcount)
    rw [hsplit, ok_bind]
    rcases hr with rfl | ⟨rfl, htc⟩
    · refine ⟨names, comp, m', rfl, hstarts, hcomp, .inl rfl, fun hm => ?_⟩
      exact absurd rfl (hm' hm.next).1
    · obtain ⟨comp', happly, hstarts', hlen⟩ := applyNames_spec (i := 0) htc hstarts hcomp
        (fun f hf => ⟨(of_mem_pathNames hf).1, (of_mem_pathNames hf).2.2.2 hzero⟩) (Nat.zero_add _)
      rw [List.drop_zero] at happly hstarts'
      refine ⟨_, comp', m', ?_, hstarts', hlen, .inr rfl, fun _ => rfl⟩
      simp only [Int.toNat_natCast]
      rw [happly, ok_bind]
      rfl
  · rw [if_neg hgrant]
    exact ⟨names, comp, m.next, rfl, hstarts, hcomp, .inl rfl, fun hm => absurd (hm 0) hgrant⟩

/-- Names come from the working directory and from the target, and there are at most 31. -/
theorem of_foldl_enterCapped (fs : List (List UInt8)) (hcount : names.length ≤ kaiTokensMax) :
    (fs.foldl enterCapped names).length ≤ kaiTokensMax ∧
      ∀ name ∈ fs.foldl enterCapped names, name ∈ names ++ fs := by
  induction fs generalizing names with
  | nil => exact ⟨hcount, fun name hname => by simpa using hname⟩
  | cons f fs ih =>
    have hstep : (enterCapped names f).length ≤ kaiTokensMax ∧
        ∀ name ∈ enterCapped names f, name ∈ names ∨ name = f := by
      unfold enterCapped
      split
      · exact ⟨hcount, fun name hname => .inl hname⟩
      · split
        · refine ⟨?_, fun name hname => .inl (List.dropLast_subset _ hname)⟩
          rw [List.length_dropLast]
          omega
        · split
          · refine ⟨?_, fun name hname => by simpa using hname⟩
            rw [List.length_append, List.length_singleton]
            omega
          · exact ⟨hcount, fun name hname => .inl hname⟩
    obtain ⟨hlen, hmem⟩ := ih hstep.1
    refine ⟨hlen, fun name hname => ?_⟩
    rcases List.mem_append.1 (hmem name hname) with hnames | hfs
    · rcases hstep.2 name hnames with hold | rfl
      · exact List.mem_append_left _ hold
      · simp
    · exact List.mem_append_right _ (List.mem_cons_of_mem f hfs)

/-- The names that a target starts from, where `malloc` does not fail. -/
def startNames (target : List UInt8) (pwd : Option (List UInt8)) : List (List UInt8) :=
  if target.head? ≠ some slash then pathNames (pwd.getD [slash]) else []

theorem resolveStart_spec (target : List UInt8) (m : Mallocs) (hcomp : comp.length = kaiTokensMax)
    (hcount : (pathNames (pwd.getD [slash])).length ≤ kaiTokensMax) :
    ∃ names comp' m', resolveStart target pwd comp m = .ok (names.length, comp', m') ∧
      comp'.Starts names ∧ comp'.length = kaiTokensMax ∧ names.length ≤ kaiTokensMax ∧
      (∀ name ∈ names, name ∈ pathNames (pwd.getD [slash])) ∧
      (m.Granting → names = startNames target pwd ∧ m'.Granting) := by
  unfold resolveStart startNames
  split
  · obtain ⟨names, comp', m', hrun, hstarts, hlen, hnames, hm'⟩ :=
      resolveBase_spec (m := m) hcomp hcount
    refine ⟨names, comp', m', hrun, hstarts, hlen, ?_, fun name hname => ?_, hm'⟩
    · rcases hnames with rfl | rfl
      · exact Nat.zero_le _
      · exact hcount
    · rcases hnames with rfl | rfl
      · cases hname
      · exact hname
  · exact ⟨[], comp, m, rfl, .nil, hcomp, Nat.zero_le _, by simp, fun hm => ⟨rfl, hm⟩⟩

/-- The names that are joined, once there is a table for them. -/
theorem resolve_spec (out : List UInt8) (hgrant : m 0 = true) (hzero : 0 ∉ target)
    (hcount : (pathNames target).length ≤ kaiTokensMax)
    (hbase : (pathNames (pwd.getD [slash])).length ≤ kaiTokensMax) :
    ∃ names comp m', resolve target pwd out m =
        (joinOut names.length comp out >>= fun out => .ok (out, m')) ∧
      comp.Starts names ∧ names.length ≤ kaiTokensMax ∧
      (∀ name ∈ names, name ∈ pathNames (pwd.getD [slash]) ++ pathNames target) ∧
      (m.Granting → names = (pathNames target).foldl enterCapped (startNames target pwd)) := by
  obtain ⟨names, comp, m₁, hstart, hstarts, hcomp, hold, holds, hm₁⟩ := resolveStart_spec
    target m.next (List.length_replicate (a := none)) hbase
  obtain ⟨names', comp', m₂, htarget, hstarts', -, hnames', hm₂⟩ :=
    resolveTarget_spec (m := m₁) hstarts hcomp hzero hcount
  have hnew : names'.length ≤ kaiTokensMax ∧
      ∀ name ∈ names', name ∈ pathNames (pwd.getD [slash]) ++ pathNames target := by
    rcases hnames' with rfl | rfl
    · exact ⟨hold, fun name hname => List.mem_append_left _ (holds name hname)⟩
    · obtain ⟨hle, hmem⟩ := of_foldl_enterCapped (pathNames target) hold
      refine ⟨hle, fun name hname => ?_⟩
      rcases List.mem_append.1 (hmem name hname) with hbefore | hbehind
      · exact List.mem_append_left _ (holds name hbefore)
      · exact List.mem_append_right _ hbehind
  refine ⟨names', comp', m₂, ?_, hstarts', hnew.1, hnew.2, fun hm => ?_⟩
  · unfold resolve callocTable
    rw [if_pos hgrant]
    simp only
    rw [hstart, ok_bind]
    simp only
    rw [htarget, ok_bind]
    rfl
  · rw [hm₂ (hm₁ hm.next).2, (hm₁ hm.next).1]

/-- Without the first table the buffer is made empty. -/
theorem resolve_empty (target : List UInt8) (pwd : Option (List UInt8)) (hgrant : m 0 ≠ true)
    (hlen : out.length = wdMaxLen) :
    ∃ out', resolve target pwd out m = .ok (out', m.next) ∧ out'.length = wdMaxLen ∧
      [0] <+: out' := by
  obtain ⟨out', hput, hlen', hpre⟩ := put_prefix (b := 0) (List.nil_prefix (l := out)) (by
    rw [hlen, List.length_nil, wdMaxLen]
    omega)
  rw [List.length_nil] at hput
  refine ⟨out', ?_, hlen'.trans hlen, hpre⟩
  unfold resolve callocTable
  rw [if_neg hgrant]
  simp only [hput, ok_bind]
  rfl

/-- A target with too many names is split behind the end of the table. -/
theorem resolve_wild (hm : m.Granting) (hcount : kaiTokensMax < (pathNames target).length)
    (hbase : (pathNames (pwd.getD [slash])).length ≤ kaiTokensMax) :
    resolve target pwd out m = .error .wild := by
  unfold resolve callocTable
  rw [if_pos (hm 0)]
  simp only
  obtain ⟨names, comp, m₁, hstart, -, -, -, -, hm₁⟩ := resolveStart_spec
    target m.next List.length_replicate hbase
  have hm₁' := (hm₁ hm.next).2
  have hsplit := strsplit_wild
    (show (List.replicate kaiTokensMax none).length < (fields (isDelim [slash]) target).length by
      rwa [List.length_replicate]) hm₁'.next
  rw [hstart, ok_bind]
  unfold resolveTarget callocTable
  simp only [hm₁' 0, if_true]
  rw [hsplit]
  rfl

end Kaku
