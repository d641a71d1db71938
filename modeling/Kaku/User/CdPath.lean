-- SUMMARY: The path that `cd` computes: the names of the target applied to those of the working directory, one by one.
import Kaku.User.Cd

/-!
# The path of `cd`

A canonical path has a slash in front of each of its names and no name that stands for
another directory. A target is a walk over such paths.
-/

namespace Kaku

variable {target pwd out name : List UInt8} {names ps : List (List UInt8)} {m : Mallocs}

/-! ## Canonical paths -/

/-- Names that stand for themselves. -/
def Plain (name : List UInt8) : Prop :=
  name ≠ [] ∧ slash ∉ name ∧ 0 ∉ name ∧ name ≠ dot ∧ name ≠ dotdot

/-- A slash, and the names joined by single slashes. -/
def Canonical (path : List UInt8) : Prop := ∃ names, (∀ name ∈ names, Plain name) ∧ path = render names

/-- What a component of the target does to the names so far. -/
def enter (names : List (List UInt8)) (name : List UInt8) : List (List UInt8) :=
  if name = [] ∨ name = dot then names
  else if name = dotdot then names.dropLast
  else names ++ [name]

/-- The names after the first `k` components of the target. An absolute target starts from
the root. -/
def entered (target : List UInt8) (names : List (List UInt8)) (k : Nat) : List (List UInt8) :=
  ((target.splitOn slash).take k).foldl enter (if target.head? = some slash then [] else names)

/-- The names after all components of the target. -/
def destination (target : List UInt8) (names : List (List UInt8)) : List (List UInt8) :=
  (target.splitOn slash).foldl enter (if target.head? = some slash then [] else names)

theorem pathNames_plain (hnames : ∀ name ∈ names, Plain name) : pathNames (render names) = names :=
  pathNames_render fun name hname => ⟨(hnames name hname).1, (hnames name hname).2.1⟩

theorem zero_not_mem_plain (hnames : ∀ name ∈ names, Plain name) : 0 ∉ render names :=
  zero_not_mem_render fun name hname => (hnames name hname).2.2.1

/-! ## The walk -/

theorem enter_nil (names : List (List UInt8)) : enter names [] = names := if_pos (.inl rfl)

theorem enterCapped_nil (names : List (List UInt8)) : enterCapped names [] = names :=
  if_pos (.inl rfl)

/-- The fields of a target are its components without the empty ones. -/
theorem foldl_pathNames {β : Type} {step : β → List UInt8 → β} (hstep : ∀ b, step b [] = b) (b : β) :
    (pathNames target).foldl step b = (target.splitOn slash).foldl step b := by
  unfold pathNames
  rw [isDelim_slash, List.splitOn_eq_splitOnP, foldl_splitOnP hstep]

/-- With room for every path on the way, none is cut short. -/
theorem foldl_enterCapped (hroom : ∀ k, ((ps.take k).foldl enter names).length ≤ kaiTokensMax) :
    ps.foldl enterCapped names = ps.foldl enter names := by
  induction ps generalizing names with
  | nil => rfl
  | cons p ps ih =>
    have hstep : enterCapped names p = enter names p := by
      have hlen := hroom 1
      rw [List.take_succ_cons, List.take_zero, List.foldl_cons, List.foldl_nil] at hlen
      unfold enter at hlen ⊢
      unfold enterCapped
      split
      · rfl
      · rename_i h₁
        rw [if_neg h₁] at hlen
        split
        · rfl
        · rename_i h₂
          rw [if_neg h₂, List.length_append, List.length_singleton] at hlen
          exact if_pos hlen
    rw [List.foldl_cons, List.foldl_cons, hstep]
    refine ih fun k => ?_
    have hlen := hroom (k + 1)
    rwa [List.take_succ_cons, List.foldl_cons] at hlen

theorem foldl_enter_plain (hps : ∀ p ∈ ps, Plain p) : ps.foldl enter names = names ++ ps := by
  induction ps generalizing names with
  | nil => simp
  | cons p ps ih =>
    obtain ⟨⟨hne, -, -, hdot, hdotdot⟩, hrest⟩ := List.forall_mem_cons.1 hps
    have hstep : enter names p = names ++ [p] := by
      unfold enter
      rw [if_neg (by rintro (h | h) <;> contradiction), if_neg hdotdot]
    rw [List.foldl_cons, hstep, ih hrest, List.append_assoc]
    rfl

/-- No path on the way has more names than the working directory and the target have together. -/
theorem length_foldl_enter_le : (ps.foldl enter names).length ≤ names.length + ps.length := by
  induction ps generalizing names with
  | nil => exact le_rfl
  | cons p ps ih =>
    have hstep : (enter names p).length ≤ names.length + 1 := by
      unfold enter
      split
      · exact Nat.le_succ _
      · split
        · rw [List.length_dropLast]
          omega
        · rw [List.length_append, List.length_singleton]
    rw [List.foldl_cons, List.length_cons]
    exact ih.trans (by omega)

/-- The walk goes over plain names only. -/
theorem destination_plain (hnames : ∀ name ∈ names, Plain name) (hzero : 0 ∉ target) :
    ∀ name ∈ destination target names, Plain name := by
  have hfields : ∀ f ∈ pathNames target, slash ∉ f ∧ 0 ∉ f := by
    intro f hf
    obtain ⟨-, hslash, -, hf⟩ := of_mem_pathNames hf
    exact ⟨hslash, hf hzero⟩
  have hfold : ∀ (ps names : List (List UInt8)), (∀ p ∈ ps, slash ∉ p ∧ 0 ∉ p) →
      (∀ name ∈ names, Plain name) → ∀ name ∈ ps.foldl enter names, Plain name := by
    intro ps
    induction ps with
    | nil => exact fun names _ hnames => hnames
    | cons p ps ih =>
      intro names hps hnames
      obtain ⟨hp, hrest⟩ := List.forall_mem_cons.1 hps
      refine ih _ hrest ?_
      unfold enter
      split
      · exact hnames
      · rename_i h₁
        split
        · exact fun name hname => hnames name (List.dropLast_subset _ hname)
        · rename_i h₂
          intro name hname
          rcases List.mem_append.1 hname with hold | hnew
          · exact hnames name hold
          · rw [List.mem_singleton] at hnew
            subst hnew
            exact ⟨fun h => h₁ (.inl h), hp.1, hp.2, fun h => h₁ (.inr h), h₂⟩
  unfold destination
  rw [← foldl_pathNames enter_nil]
  refine hfold _ _ hfields ?_
  split
  · simp
  · exact hnames

/-! ## Resolving -/

/-- The working directory does not matter to an absolute target. -/
theorem resolve_absolute (pwd pwd' : Option (List UInt8)) (htarget : target.head? = some slash) :
    resolve target pwd out m = resolve target pwd' out m := by
  have hstart (comp : StrTable) (m : Mallocs) :
      resolveStart target pwd comp m = resolveStart target pwd' comp m := by
    unfold resolveStart
    rw [if_neg (not_not_intro htarget), if_neg (not_not_intro htarget)]
  simp only [resolve, hstart]

/-- Where nothing is too long, too many or missing, the buffer holds the path of the names. -/
theorem resolve_render (pwd : Option (List UInt8)) (hm : m.Granting) (hlen : out.length = wdMaxLen)
    (hzero : 0 ∉ target) (hcount : (pathNames target).length ≤ kaiTokensMax)
    (hbase : (pathNames (pwd.getD [slash])).length ≤ kaiTokensMax)
    (hnames : (pathNames target).foldl enterCapped (startNames target pwd) = names)
    (hplain : ∀ name ∈ names, Plain name) (hshort : (render names).length < 511) :
    ∃ out' m', resolve target pwd out m = .ok (out', m') ∧ cString out' = render names := by
  obtain ⟨names', comp, m', hresolve, hcomp, -, -, hnames'⟩ :=
    resolve_spec out (hm 0) hzero hcount hbase
  obtain rfl : names' = names := (hnames' hm).trans hnames
  obtain ⟨out', kept, hjoin, -, -, hout, hall⟩ := joinOut_spec hcomp hlen fun name hname => by
    obtain ⟨rest, rfl⟩ : ∃ rest, names' = name :: rest := by
      cases names' with
      | nil => cases hname
      | cons first rest => exact ⟨rest, by rw [Option.some.inj hname]⟩
    rw [render_cons, List.length_cons, List.length_append] at hshort
    rw [wdMaxLen]
    omega
  obtain rfl : kept = names' := hall (by rw [wdMaxLen]; omega)
  refine ⟨out', m', ?_, cString_eq hout (zero_not_mem_plain hplain)⟩
  rw [hresolve, hjoin, ok_bind]

/-- Resolving a target in a canonical working directory gives the canonical path of the names
that the walk over the target leads to, and resolving that gives the same again. -/
theorem cd_canonical (hm : m.Granting) (hlen : out.length = wdMaxLen) (hzero : 0 ∉ target)
    (hplain : ∀ name ∈ names, Plain name) (hbase : names.length ≤ kaiTokensMax)
    (hcount : (pathNames target).length ≤ kaiTokensMax)
    (hway : ∀ k, (entered target names k).length ≤ kaiTokensMax)
    (hshort : (render (destination target names)).length < 511) :
    ∃ out' m', resolve target (some (render names)) out m = .ok (out', m') ∧
      cString out' = render (destination target names) ∧ Canonical (cString out') ∧
      ∀ pwd out₂ m₂, m₂.Granting → out₂.length = wdMaxLen →
        ∃ out₃ m₃, resolve (cString out') pwd out₂ m₂ = .ok (out₃, m₃) ∧
          cString out₃ = cString out' := by
  have hdest := destination_plain hplain hzero
  have hnames : (pathNames target).foldl enterCapped (startNames target (some (render names))) =
      destination target names := by
    have hstart : startNames target (some (render names)) =
        if target.head? = some slash then [] else names := by
      unfold startNames
      rw [Option.getD_some, pathNames_plain hplain, ite_not]
    rw [hstart, foldl_pathNames enterCapped_nil]
    exact foldl_enterCapped hway
  obtain ⟨out', m', hresolve, hout⟩ := resolve_render (some (render names)) hm hlen hzero
    hcount (by rwa [Option.getD_some, pathNames_plain hplain]) hnames hdest hshort
  refine ⟨out', m', hresolve, hout, ⟨_, hdest, hout⟩, fun pwd out₂ m₂ hm₂ hlen₂ => ?_⟩
  -- the whole walk is one of those on the way
  have hall : (destination target names).length ≤ kaiTokensMax := by
    have hend := hway (target.splitOn slash).length
    unfold entered at hend
    rwa [List.take_length] at hend
  have hagain : (pathNames (render (destination target names))).foldl enterCapped
      (startNames (render (destination target names)) none) = destination target names := by
    have hstart : startNames (render (destination target names)) none = [] :=
      if_neg (not_not_intro rfl)
    rw [hstart, pathNames_plain hdest, foldl_enterCapped fun k => ?_, foldl_enter_plain hdest]
    · rfl
    · rw [foldl_enter_plain fun p hp => hdest p (List.mem_of_mem_take hp), List.nil_append,
        List.length_take]
      omega
  have hroot : (pathNames ((none : Option (List UInt8)).getD [slash])).length ≤ kaiTokensMax := by
    rw [Option.getD_none, pathNames_root]
    exact Nat.zero_le _
  obtain ⟨out₃, m₃, hresolve₃, hout₃⟩ := resolve_render none hm₂ hlen₂
    (zero_not_mem_plain hdest) (by rwa [pathNames_plain hdest]) hroot hagain hdest hshort
  refine ⟨out₃, m₃, ?_, hout₃.trans hout.symm⟩
  rw [hout, resolve_absolute pwd none rfl]
  exact hresolve₃

/-- From `/user` the target `../bin` leads to `/bin`. -/
theorem cd_canonical_up :
    ∃ out m, resolve [0x2E, 0x2E, 0x2F, 0x62, 0x69, 0x6E]
        (some (render [[0x75, 0x73, 0x65, 0x72]])) (List.replicate wdMaxLen 0) (fun _ => true) =
          .ok (out, m) ∧
      cString out = [0x2F, 0x62, 0x69, 0x6E] := by
  have hplain : ∀ name ∈ [([0x75, 0x73, 0x65, 0x72] : List UInt8)], Plain name := by
    simp [Plain, slash, dot, dotdot]
  have hway (k : Nat) : (entered [0x2E, 0x2E, 0x2F, 0x62, 0x69, 0x6E]
      [[0x75, 0x73, 0x65, 0x72]] k).length ≤ kaiTokensMax := by
    refine length_foldl_enter_le.trans ?_
    have hparts : ([0x2E, 0x2E, 0x2F, 0x62, 0x69, 0x6E] : List UInt8).splitOn slash =
        [[0x2E, 0x2E], [0x62, 0x69, 0x6E]] := by decide
    rw [hparts, List.length_take]
    exact (Nat.add_le_add_left (Nat.min_le_right _ _) _).trans (by decide)
  obtain ⟨out, m, hresolve, hout, -⟩ := @cd_canonical
    [0x2E, 0x2E, 0x2F, 0x62, 0x69, 0x6E] (List.replicate wdMaxLen 0) [[0x75, 0x73, 0x65, 0x72]]
    (fun _ => true) (fun _ => rfl) List.length_replicate (by decide) hplain (by decide) ((length_fields_le _).trans (by decide))
    hway (by decide)
  exact ⟨out, m, hresolve, hout.trans (by decide)⟩

end Kaku
