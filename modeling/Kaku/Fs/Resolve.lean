-- SUMMARY: Resolving a path is the fold of directory lookup over its names.
import Kaku.Fs.Path

/-!
# Paths and their names

A path is made of names: joined with slashes, with a slash in front or behind if
need be. The splitter gives them back, with an empty segment before them when the
path starts with a slash, and the walk starts behind that segment.
-/

namespace Kaku

/-! ## Splitting what was joined -/

section Splitting

variable {delim : UInt8} {name segment s : List UInt8} {names : List (List UInt8)}

theorem kstrsplitFrom_append (hname : delim ∉ name) :
    kstrsplitFrom delim segment (name ++ s) = kstrsplitFrom delim (segment ++ name) s := by
  induction name generalizing segment with
  | nil => rw [List.nil_append, List.append_nil]
  | cons c name ih =>
    have hc : c ≠ delim := fun heq => hname (heq ▸ List.mem_cons_self)
    rw [List.cons_append, kstrsplitFrom, if_neg hc, ih fun h => hname (List.mem_cons_of_mem c h),
      List.append_assoc]
    rfl

theorem kstrsplitFrom_delim :
    kstrsplitFrom delim segment (delim :: s) = segment :: kstrsplit s delim := by
  rw [kstrsplitFrom, if_pos rfl, kstrsplit]

/-- The joined string starts with the first one. -/
theorem kstrjoin_cons (delim : UInt8) (name : List UInt8) (names : List (List UInt8)) :
    ∃ t, kstrjoin delim (name :: names) = name ++ t := by
  cases names with
  | nil => exact ⟨[], by rw [kstrjoin, List.append_nil]⟩
  | cons next names => exact ⟨_, rfl⟩

/-- What stands behind the names when the path ends: nothing, or a delimiter. -/
def ending (delim : UInt8) (trailing : Bool) : List UInt8 := if trailing then [delim] else []

/-- The splitter gives back the names that were joined. -/
theorem kstrsplit_kstrjoin {trailing : Bool} (hnames : ∀ name ∈ names, name ≠ [] ∧ delim ∉ name)
    (hne : names ≠ []) :
    kstrsplit (kstrjoin delim names ++ ending delim trailing) delim = names := by
  induction names with
  | nil => exact absurd rfl hne
  | cons name names ih =>
    obtain ⟨hfilled, hname⟩ := hnames name List.mem_cons_self
    cases names with
    | nil =>
      rw [kstrjoin, kstrsplit, kstrsplitFrom_append hname, List.nil_append]
      cases trailing with
      | false => rw [ending, if_neg Bool.false_ne_true, kstrsplitFrom, if_neg hfilled]
      | true => rw [ending, if_pos rfl, kstrsplitFrom_delim, kstrsplit, kstrsplitFrom, if_pos rfl]
    | cons next names =>
      have hrest := ih (fun n hn => hnames n (List.mem_cons_of_mem name hn)) (List.cons_ne_nil _ _)
      rw [kstrjoin, List.append_assoc, kstrsplit, kstrsplitFrom_append hname, List.nil_append,
        List.cons_append, kstrsplitFrom_delim, hrest]

end Splitting

/-- The paths that are made of these names. -/
inductive IsPath : List UInt8 → List (List UInt8) → Prop
  | root : IsPath [slash] []
  | names {names : List (List UInt8)} (leading trailing : Bool) :
      names ≠ [] → (∀ name ∈ names, name ≠ [] ∧ slash ∉ name) →
      IsPath (ending slash leading ++ (kstrjoin slash names ++ ending slash trailing)) names

namespace Mount

/-! ## The fold -/

/-- Look a name up in the directory that was reached, and read the inode it leads to. What
was reached is kept with its number; a name that is not found leads nowhere. -/
def lookupStep (fs : Mount) : Option (Nat × Inode) × Volume → List UInt8 →
    K (Option (Nat × Inode) × Volume)
  | (none, v), _ => pure (none, v)
  | (some (_, dir), v), name => do
    let (n, v) ← fs.findInDir dir name v
    if n = 0 then pure (none, v)
    else
      let (inode, v) ← fs.readInode n v
      pure (some (n, inode), v)

/-- The lookups of all names, from inode 2 on. -/
def lookupAll (fs : Mount) (names : List (List UInt8)) (v : Volume) :
    K (Option (Nat × Inode) × Volume) := do
  let (root, v) ← fs.readInode 2 v
  names.foldlM fs.lookupStep (some (2, root), v)

/-- The inode that was reached, or the inode of zeros. -/
def reached : Option (Nat × Inode) → Inode
  | none => noInode
  | some (_, inode) => inode

variable {fs : Mount} {v v' : Volume} {dir inode : Inode} {n : Nat} {name path : List UInt8}
  {names : List (List UInt8)} {r : Option (Nat × Inode)}

/-- Behind a name that is not found no other is looked up. -/
theorem foldlM_none (v : Volume) : names.foldlM fs.lookupStep (none, v) = .ok (none, v) := by
  induction names with
  | nil => rfl
  | cons name names ih => exact ih

theorem resolveNames_eq (n : Nat) : fs.resolveNames names dir v =
    names.foldlM fs.lookupStep (some (n, dir), v) >>= fun p => pure (reached p.1, p.2) := by
  induction names generalizing dir v n with
  | nil => rfl
  | cons name names ih =>
    rw [resolveNames, List.foldlM_cons, lookupStep]
    cases hfind : fs.findInDir dir name v with
    | error e => rfl
    | ok found =>
      obtain ⟨m, w⟩ := found
      simp only [ok_bind]
      split_ifs with hzero
      · simp only [pure_bind, foldlM_none, ok_bind]
        rfl
      · cases hread : fs.readInode m w with
        | error e => rfl
        | ok next =>
          simp only [ok_bind, pure_bind]
          exact ih m

/-- The first lookup and the others are one walk. -/
theorem resolvePath_eq (hpath : path ≠ [slash])
    (hnames : (kstrsplit path slash).drop (if path.head? = some slash then 1 else 0) = name :: names) :
    fs.resolvePath path v =
      fs.lookupAll (name :: names) v >>= fun p => pure (reached p.1, p.2) := by
  rw [resolvePath, lookupAll]
  cases hroot : fs.readInode 2 v with
  | error e => rfl
  | ok root =>
    simp only [ok_bind, if_neg hpath]
    generalize (if path.head? = some slash then 1 else 0) = start at hnames ⊢
    have hfirst : (kstrsplit path slash)[start]? = some name := by
      rw [← List.head?_drop, hnames, List.head?_cons]
    have hrest : (kstrsplit path slash).drop (start + 1) = names := by
      rw [← List.tail_drop, hnames, List.tail_cons]
    rw [← resolveNames_eq 2, hfirst, hrest]
    rfl

theorem readInode_number (hr : fs.Reliable) (h : fs.readInode n v = .ok (inode, v')) :
    inode.inodeId = n := by
  rw [readInode] at h
  obtain ⟨⟨blk, offset⟩, -, h⟩ := bind_eq_ok.1 h
  simp only [readBlk, ataRead, hr _ _, Option.isNone_none, Bool.not_true, Bool.false_eq_true,
    if_false] at h
  split_ifs at h
  cases h
  rfl

/-- What the walk finds has the number that led to it, and that is not 0. -/
theorem lookupStep_number (hr : fs.Reliable) {s s' : Option (Nat × Inode) × Volume}
    (h : fs.lookupStep s name = .ok s')
    (hs : ∀ p, s.1 = some p → p.1 ≠ 0 ∧ p.2.inodeId = p.1) :
    ∀ p, s'.1 = some p → p.1 ≠ 0 ∧ p.2.inodeId = p.1 := by
  obtain ⟨r, v⟩ := s
  cases r with
  | none =>
    cases h
    exact hs
  | some q =>
    rw [lookupStep] at h
    obtain ⟨⟨n, w⟩, hfind, h⟩ := bind_eq_ok.1 h
    simp only at h
    split_ifs at h with hzero
    · cases h
      simp
    · obtain ⟨⟨inode, u⟩, hread, h⟩ := bind_eq_ok.1 h
      cases h
      rintro p hp
      cases hp
      exact ⟨hzero, readInode_number hr hread⟩

theorem foldlM_number (hr : fs.Reliable) {s s' : Option (Nat × Inode) × Volume}
    (h : names.foldlM fs.lookupStep s = .ok s')
    (hs : ∀ p, s.1 = some p → p.1 ≠ 0 ∧ p.2.inodeId = p.1) :
    ∀ p, s'.1 = some p → p.1 ≠ 0 ∧ p.2.inodeId = p.1 := by
  induction names generalizing s with
  | nil =>
    cases h
    exact hs
  | cons name names ih =>
    rw [List.foldlM_cons] at h
    obtain ⟨t, hstep, hrest⟩ := bind_eq_ok.1 h
    exact ih hrest (lookupStep_number hr hstep hs)

/-- The walk leads nowhere exactly if one of its lookups returns 0. -/
theorem foldlM_eq_none_iff {q : Nat × Inode} :
    names.foldlM fs.lookupStep (some q, v) = .ok (none, v') ↔
      ∃ before name behind p w, names = before ++ name :: behind ∧
        before.foldlM fs.lookupStep (some q, v) = .ok (some p, w) ∧
        fs.findInDir p.2 name w = .ok (0, v') := by
  induction names generalizing q v with
  | nil =>
    constructor
    · intro h
      cases h
    · rintro ⟨before, name, behind, p, w, hnames, -⟩
      simp at hnames
  | cons name names ih =>
    rw [List.foldlM_cons, lookupStep]
    constructor
    · intro h
      obtain ⟨t, hstep, hrest⟩ := bind_eq_ok.1 h
      obtain ⟨⟨m, w⟩, hfind, hstep⟩ := bind_eq_ok.1 hstep
      simp only at hstep
      split_ifs at hstep with hzero
      · cases hstep
        rw [foldlM_none] at hrest
        cases hrest
        exact ⟨[], name, names, q, v, rfl, rfl, hzero ▸ hfind⟩
      · obtain ⟨⟨next, u⟩, hread, hstep⟩ := bind_eq_ok.1 hstep
        cases hstep
        obtain ⟨before, name', behind, p, w', hnames, hbefore, hlast⟩ := ih.1 hrest
        refine ⟨name :: before, name', behind, p, w', by rw [hnames, List.cons_append], ?_, hlast⟩
        rw [List.foldlM_cons, lookupStep, hfind, ok_bind]
        simp only [if_neg hzero, hread]
        exact hbefore
    · rintro ⟨before, name', behind, p, w, hnames, hbefore, hlast⟩
      cases before with
      | nil =>
        obtain ⟨rfl, rfl⟩ := List.cons.inj hnames
        cases hbefore
        rw [hlast]
        exact foldlM_none v'
      | cons first before =>
        rw [List.cons_append] at hnames
        obtain ⟨rfl, hrest⟩ := List.cons.inj hnames
        rw [List.foldlM_cons, lookupStep] at hbefore
        obtain ⟨t, hstep, hbefore⟩ := bind_eq_ok.1 hbefore
        rw [hstep, ok_bind]
        obtain ⟨r, u⟩ := t
        cases r with
        | none =>
          rw [foldlM_none] at hbefore
          cases hbefore
        | some q' => exact ih.2 ⟨before, name', behind, p, w, hrest, hbefore, hlast⟩

/-- The names of a path are what the splitter gives behind the leading slash. -/
theorem kstrsplit_of_isPath (hpath : IsPath path (name :: names)) : path ≠ [slash] ∧
    (kstrsplit path slash).drop (if path.head? = some slash then 1 else 0) = name :: names := by
  cases hpath with
  | names leading trailing hne hnames =>
    obtain ⟨hfilled, hname⟩ := hnames name List.mem_cons_self
    have hsplit : kstrsplit (kstrjoin slash (name :: names) ++ ending slash trailing) slash =
        name :: names := kstrsplit_kstrjoin hnames hne
    obtain ⟨t, ht⟩ := kstrjoin_cons slash name names
    obtain ⟨c, s, rfl⟩ := List.exists_cons_of_ne_nil hfilled
    have hc : c ≠ slash := fun heq => hname (heq ▸ List.mem_cons_self)
    rw [ht, List.cons_append, List.cons_append] at hsplit ⊢
    cases leading with
    | false =>
      have hhead : ¬ some c = some slash := by simpa using hc
      rw [ending, if_neg Bool.false_ne_true, List.nil_append, List.head?_cons, if_neg hhead]
      exact ⟨fun heq => hc (List.cons.inj heq).1, hsplit⟩
    | true =>
      rw [ending, if_pos rfl, List.cons_append, List.nil_append, List.head?_cons, if_pos rfl,
        kstrsplit, kstrsplitFrom_delim, hsplit]
      exact ⟨fun heq => by simp at heq, rfl⟩

end Mount

end Kaku
