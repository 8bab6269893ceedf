import KernelThreads.Fs.Refs
import Mathlib.Data.List.TakeWhile

namespace KernelThreads.Fs

open Lib Program

/-! Paths: what `namex` finds, and the references and locks that it leaves. -/

/-- The names between the slashes, as far as they are compared. -/
def components (path : Path) : List (List Byte) :=
  ((path.splitOn SLASH).filter (· ≠ [])).map (List.take DIRSIZ)

section Components

variable {path rest element : Path}

theorem components_nil : components [] = [] := by
  unfold components
  rw [List.splitOn_nil]
  rfl

theorem components_slash (path : Path) : components (SLASH :: path) = components path := by
  have hsplit : (SLASH :: path).splitOn SLASH = [] :: path.splitOn SLASH := by
    unfold List.splitOn
    rw [List.splitOnP_cons_eq_if_modifyHead, if_pos (by simp)]
  unfold components
  rw [hsplit]
  rfl

theorem components_dropWhile (path : Path) :
    components (path.dropWhile (· = SLASH)) = components path := by
  induction path with
  | nil => rfl
  | cons b path ih =>
      rw [List.dropWhile_cons]
      split
      next hb =>
        rw [of_decide_eq_true hb, components_slash, ih]
      next => rfl

theorem components_element (hsome : element ≠ []) (hin : SLASH ∉ element) :
    components (element ++ SLASH :: rest) = element.take DIRSIZ :: components rest := by
  have hsplit : (element ++ SLASH :: rest).splitOn SLASH = element :: rest.splitOn SLASH := by
    unfold List.splitOn
    refine List.splitOnP_append_cons_of_forall_mem (fun b hb => ?_) _ (by simp) _
    rw [beq_eq_false_iff_ne]
    rintro rfl
    exact hin hb
  unfold components
  rw [hsplit, List.filter_cons_of_pos (by simpa using hsome), List.map_cons]

theorem components_last (hsome : element ≠ []) (hin : SLASH ∉ element) :
    components element = [element.take DIRSIZ] := by
  have hsplit : element.splitOn SLASH = [element] := by
    unfold List.splitOn
    refine List.splitOnP_eq_singleton fun b hb => ?_
    rw [beq_eq_false_iff_ne]
    rintro rfl
    exact hin hb
  unfold components
  rw [hsplit, List.filter_cons_of_pos (by simpa using hsome)]
  rfl

theorem cstr_nameOf (hzero : (0 : Byte) ∉ element) :
    cstr (nameOf element) = element.take DIRSIZ := by
  have hbytes : ∀ n i, i + n = DIRSIZ →
      cstrFrom (nameOf element).byte n i = (element.drop i).take n := by
    intro n
    induction n with
    | zero => intro i _; simp [cstrFrom]
    | succ n ih =>
        intro i hi
        have hbyte : (nameOf element).byte i = element.getD i 0 :=
          Bytes.byte_of_lt _ (by omega)
        rw [cstrFrom_succ, hbyte]
        by_cases hlt : i < element.length
        · have hget : element.getD i 0 = element[i] := by simp [hlt]
          have hne : element[i] ≠ 0 := fun heq => hzero (heq ▸ List.getElem_mem hlt)
          rw [hget, if_neg hne, ih (i + 1) (by omega), List.drop_eq_getElem_cons hlt,
            List.take_succ_cons]
        · have hget : element.getD i 0 = 0 := by simp [not_lt.mp hlt]
          rw [hget, if_pos rfl, List.drop_eq_nil_of_le (not_lt.mp hlt), List.take_nil]
  exact hbytes DIRSIZ 0 rfl

theorem skipelem_none (h : skipelem path = none) : components path = [] := by
  unfold skipelem at h
  rw [← components_dropWhile]
  dsimp only at h
  split at h
  next hnil => rw [hnil, components_nil]
  next => cases h

structure Trimmed (path : Path) : Prop where
  nonempty : path ≠ []
  head : path.head? ≠ some SLASH

theorem trimmed_dropWhile (h : path.dropWhile (· = SLASH) ≠ []) :
    Trimmed (path.dropWhile (· = SLASH)) := by
  refine ⟨h, fun hhead => ?_⟩
  have hout := List.head?_dropWhile_not (fun c : Byte => decide (c = SLASH)) path
  rw [hhead] at hout
  simp at hout

theorem Trimmed.first (h : Trimmed path) :
    path.takeWhile (· ≠ SLASH) ≠ [] ∧
      components path = (path.takeWhile (· ≠ SLASH)).take DIRSIZ ::
        components (path.dropWhile (· ≠ SLASH)) := by
  have hsplit := List.takeWhile_append_dropWhile (p := fun c : Byte => decide (c ≠ SLASH))
    (l := path)
  have hin : SLASH ∉ path.takeWhile (· ≠ SLASH) := by
    intro hmem
    simpa using List.mem_takeWhile_imp hmem
  have hsome : path.takeWhile (· ≠ SLASH) ≠ [] := by
    intro hnil
    rw [hnil, List.nil_append] at hsplit
    have hout := List.head?_dropWhile_not (fun c : Byte => decide (c ≠ SLASH)) path
    rw [hsplit] at hout
    cases path with
    | nil => exact h.nonempty rfl
    | cons b path =>
        have hb : b = SLASH := by simpa using hout
        exact h.head (congrArg Option.some hb)
  refine ⟨hsome, ?_⟩
  generalize path.takeWhile (· ≠ SLASH) = element at hsplit hin hsome ⊢
  have hout := List.head?_dropWhile_not (fun c : Byte => decide (c ≠ SLASH)) path
  generalize path.dropWhile (· ≠ SLASH) = left at hsplit hout ⊢
  cases left with
  | nil =>
      rw [List.append_nil] at hsplit
      rw [← hsplit, components_last hsome hin, components_nil]
  | cons b left =>
      have hb : b = SLASH := by simpa using hout
      rw [← hsplit, hb, components_element hsome hin, components_slash]

theorem skipelem_some {name : Name} (hzero : (0 : Byte) ∉ path)
    (h : skipelem path = some (name, rest)) :
    components path = cstr name :: components rest ∧ rest.length < path.length ∧
      (0 : Byte) ∉ rest ∧ (rest = [] ↔ components rest = []) := by
  unfold skipelem at h
  dsimp only at h
  split at h
  next => cases h
  next hsome =>
    cases h
    obtain ⟨helement, hcomponents⟩ := (trimmed_dropWhile hsome).first
    rw [← components_dropWhile path, hcomponents]
    have hsuffix : path.dropWhile (· = SLASH) <:+ path := List.dropWhile_suffix _
    have hsplit := List.takeWhile_append_dropWhile (p := fun c : Byte => decide (c ≠ SLASH))
      (l := path.dropWhile (· = SLASH))
    generalize path.dropWhile (· = SLASH) = start at helement hsuffix hsplit ⊢
    generalize start.takeWhile (· ≠ SLASH) = element at helement hsplit ⊢
    generalize start.dropWhile (· ≠ SLASH) = left at hsplit ⊢
    have hrest : left.dropWhile (· = SLASH) <:+ left := List.dropWhile_suffix _
    have hzeros : (0 : Byte) ∉ start := fun hmem => hzero (hsuffix.subset hmem)
    have helements : (0 : Byte) ∉ element := fun hmem =>
      hzeros (hsplit ▸ List.mem_append_left _ hmem)
    refine ⟨by rw [cstr_nameOf helements, components_dropWhile], ?_, ?_, ?_⟩
    · have hpos := List.length_pos_iff.mpr helement
      have hlength := congrArg List.length hsplit
      rw [List.length_append] at hlength
      have hle := hrest.length_le
      have hle' := hsuffix.length_le
      omega
    · exact fun hmem => hzeros (hsplit ▸ List.mem_append_right _ (hrest.subset hmem))
    · constructor
      · intro hnil
        rw [hnil, components_nil]
      · intro hnone
        by_contra hlater
        rw [(trimmed_dropWhile hlater).first.2] at hnone
        cases hnone

end Components

namespace Store

def lookup (st : Store) (d : Nat) (name : List Byte) : Option Nat :=
  if (st.inode d).type = T_DIR then
    ((List.range (st.count d)).find? fun k =>
      (st.entry d k).inum ≠ 0 ∧ cstr (st.entry d k).name = name).map fun k =>
        (st.entry d k).inum.toNat
  else none

def resolve (st : Store) (d : Nat) (names : List (List Byte)) : Option Nat :=
  names.foldlM st.lookup d

/-- The directory that the last name is looked up in, and that name. -/
def resolveParent (st : Store) (d : Nat) (names : List (List Byte)) :
    Option (Nat × List Byte) :=
  match names.getLast? with
  | none => none
  | some last =>
      ((st.resolve d names.dropLast).filter fun i => (st.inode i).type = T_DIR).map (·, last)

variable {st : Store} {d : Nat}

theorem lookup_of_not_dir (h : (st.inode d).type ≠ T_DIR) (name : List Byte) :
    st.lookup d name = none := if_neg h

theorem lookup_eq (h : (st.inode d).type = T_DIR) (name : Name) :
    st.lookup d (cstr name) =
      (st.findName d name).map fun k => (st.entry d k).inum.toNat := by
  have hnamed : ∀ k, ((st.entry d k).inum ≠ 0 ∧ cstr (st.entry d k).name = cstr name) ↔
      st.Named d name k := by
    intro k
    rw [Named, namecmp_iff, eq_comm]
  unfold lookup findName
  rw [if_pos h]
  simp only [hnamed]

theorem resolve_cons (name : List Byte) (names : List (List Byte)) :
    st.resolve d (name :: names) = (st.lookup d name).bind (st.resolve · names) := rfl

theorem resolveParent_last (name : List Byte) :
    st.resolveParent d [name] = if (st.inode d).type = T_DIR then some (d, name) else none := by
  by_cases htype : (st.inode d).type = T_DIR <;>
    simp [resolveParent, resolve, Option.filter, htype]

theorem resolveParent_cons (name : List Byte) {names : List (List Byte)}
    (hnames : names ≠ []) :
    st.resolveParent d (name :: names) =
      (st.lookup d name).bind (st.resolveParent · names) := by
  obtain ⟨next, rest, rfl⟩ := List.exists_cons_of_ne_nil hnames
  simp only [resolveParent, List.getLast?_cons_cons, List.dropLast_cons_cons, resolve_cons]
  have hlast : (next :: rest).getLast? = some ((next :: rest).getLast hnames) :=
    List.getLast?_eq_some_getLast hnames
  rw [hlast]
  cases st.lookup d name <;> rfl

end Store

namespace FsState

/-- The inode has a name, or something in memory points to it. -/
def Kept (sb : Superblock) (s : FsState) (i : Nat) : Prop :=
  ((s.store sb).inode i).nlink ≠ 0 ∨ ∃ jp, 0 < s.shape.pointers jp ∧ (s.icache jp).inum = i

structure Present (sb : Superblock) (s : FsState) (i : Nat) : Prop where
  allocated : (s.store sb).Allocated sb i
  kept : s.Kept sb i

/-- The root, and whatever the entries of directories and the current directories
name, is present. -/
structure Tree (sb : Superblock) (s : FsState) : Prop where
  root : s.Present sb ROOTINO
  whole : ∀ d, (s.store sb).Allocated sb d → ((s.store sb).inode d).type = T_DIR →
    (s.store sb).size d % DESIZE = 0
  named : ∀ d, (s.store sb).Allocated sb d → ((s.store sb).inode d).type = T_DIR →
    ∀ k, ((s.store sb).entry d k).inum ≠ 0 →
      s.Present sb ((s.store sb).entry d k).inum.toNat
  cwd : ∀ p ip, (s.proc p).cwd = some ip → (s.store sb).Allocated sb (s.icache ip).inum

variable {sb : Superblock} {s next : FsState} {kept held : Multiset InodePtr}
variable {i : Nat}

theorem Kept.keeps (h : s.Kept sb i) (hkeeps : Keeps kept s next)
    (hstore : next.store sb = s.store sb) : next.Kept sb i := by
  cases h with
  | inl hlinks => exact .inl (hstore ▸ hlinks)
  | inr hpointed =>
      obtain ⟨jp, hpos, hinum⟩ := hpointed
      refine .inr ⟨jp, hkeeps.pointers ▸ hpos, ?_⟩
      rw [hkeeps.inum jp (.inl hpos)]
      exact hinum

theorem Present.keeps (h : s.Present sb i) (hkeeps : Keeps kept s next)
    (hstore : next.store sb = s.store sb) : next.Present sb i :=
  ⟨hstore ▸ h.allocated, h.kept.keeps hkeeps hstore⟩

theorem Tree.keeps (h : s.Tree sb) (hkeeps : Keeps kept s next)
    (hstore : next.store sb = s.store sb) : next.Tree sb where
  root := h.root.keeps hkeeps hstore
  whole := hstore ▸ h.whole
  named d hd htype k hne := by
    rw [hstore] at hd htype hne ⊢
    exact (h.named d hd htype k hne).keeps hkeeps hstore
  cwd p ip hp := by
    rw [hkeeps.proc] at hp
    rw [hstore, hkeeps.inum ip (.inl (Shape.pins_of_cwd (p := p) hp))]
    exact h.cwd p ip hp

theorem Kept.stays {rest : Multiset InodePtr} {ip : InodePtr}
    (h : s.Kept sb (s.icache ip).inum) (hsound : Sound sb s (ip ::ₘ rest)) :
    s.Stays sb rest ip := by
  cases h with
  | inl hlinks => exact .inl hlinks
  | inr hpointed =>
      obtain ⟨jp, hpos, hinum⟩ := hpointed
      have hsame : jp = ip := hsound.counted.alone jp ip
        (hsound.counted.pins_iff.mp (.inl hpos))
        (hsound.counted.pins_iff.mp mem_pins) hinum
      exact .inr (.inl (hsame ▸ hpos))

end FsState

section Walk

variable {sb : Superblock} {s : FsState} {held : Multiset InodePtr} {dp ip : InodePtr}
variable {path : Path}

theorem Sound.readable (h : Sound sb s held) (hpin : s.shape.Pins held dp)
    (hvalid : (s.icache dp).valid = true)
    (htype : ((s.store sb).inode (s.icache dp).inum).type = T_DIR) :
    Readable sb s dp (s.icache dp).inum :=
  ⟨h.works hpin hvalid, h.owned, h.mapped, h.live hpin hvalid, htype⟩

inductive Looked (sb : Superblock) (held : Multiset InodePtr) (d : Nat) (name : Name)
    (s : FsState) : Option (InodePtr × Nat) → FsState → Prop where
  | missing (hnone : (s.store sb).findName d name = none) : Looked sb held d name s none s
  | found (ip : InodePtr) (k : Nat) (next : FsState)
      (hfound : (s.store sb).findName d name = some k)
      (hinum : (next.icache ip).inum = ((s.store sb).entry d k).inum.toNat)
      (hstore : next.store sb = s.store sb)
      (hafter : After sb held (ip ::ₘ held) s.shape.locked s next) :
      Looked sb held d name s (some (ip, k * DESIZE)) next

inductive LookStops (sb : Superblock) (held : Multiset InodePtr) (d : Nat) (s : FsState) :
    FsStop → Prop where
  | notDir (htype : ((s.store sb).inode d).type ≠ T_DIR) :
      LookStops sb held d s .dirlookupNotDir
  | ragged (hsize : (s.store sb).size d % DESIZE ≠ 0) : LookStops sb held d s .dirlookupRead
  | full (hfull : ∀ ip, s.shape.Pins held ip) : LookStops sb held d s .igetNoInodes

theorem meets_dirlookup (h : Sound sb s held) (hpin : s.shape.Pins held dp)
    (hvalid : (s.icache dp).valid = true) (name : Name) :
    Meets (dirlookup sb dp name) (LookStops sb held (s.icache dp).inum s) s fun r next =>
      ((s.store sb).inode (s.icache dp).inum).type = T_DIR ∧
        Looked sb held (s.icache dp).inum name s r next := by
  have hworks := h.works hpin hvalid
  refine Meets.bind_ok (getInode_run ..) ?_
  rw [← hworks.current]
  dsimp only
  split
  next htype => exact Meets.throw (.notDir htype)
  next htype =>
    have hdir := not_not.mp htype
    have hread := h.readable hpin hvalid hdir
    rw [← Nat.zero_mul DESIZE]
    refine Meets.bind ((meets_findEntry hread name (Nat.lt_succ_self _) (by simp)).mono
      (fun stop hstop => hstop.1 ▸ .ragged hstop.2) fun _ _ => id) ?_
    rintro r s ⟨rfl, rfl⟩
    cases hfind : (s.store sb).findName (s.icache dp).inum name with
    | none => exact Meets.pure ⟨hdir, .missing hfind⟩
    | some k =>
        have hlt := h.inTable _ hread.allocated hdir k
        refine Meets.bind ((meets_iget h hlt).mono
          (fun stop hstop => hstop.1 ▸ .full hstop.2) fun _ _ => id) ?_
        rintro ip next ⟨hafter, hstore, hinum⟩
        exact Meets.pure ⟨hdir, .found ip k next hfind hinum hstore hafter⟩

def Shape.Crowded (shape : Shape) (held : Multiset InodePtr) : Prop :=
  ∃ ip, ∀ jp, jp ≠ ip → shape.Pins held jp

theorem Shape.crowded_of_full {shape : Shape} (h : ∀ jp, shape.Pins (ip ::ₘ held) jp) :
    shape.Crowded held := by
  refine ⟨ip, fun jp hne => (h jp).imp_right fun hmem => ?_⟩
  exact (Multiset.mem_cons.mp hmem).resolve_left hne

theorem Keeps.crowded {kept held' : Multiset InodePtr} {next : FsState}
    (h : Keeps kept s next) : next.shape.Crowded held' ↔ s.shape.Crowded held' := by
  unfold Shape.Crowded Shape.Pins
  rw [h.pointers]

abbrev unlocked : InodePtr → Bool := fun _ => false

def holding (held : Multiset InodePtr) : Option InodePtr → Multiset InodePtr
  | none => held
  | some ip => ip ::ₘ held

structure Walked (sb : Superblock) (parent : Bool) (held : Multiset InodePtr)
    (s : FsState) (d : Nat) (path : Path) (r : Option (InodePtr × Name))
    (next : FsState) : Prop where
  after : After sb held (holding held (r.map Prod.fst)) unlocked s next
  store : next.store sb = s.store sb
  inode : parent = false → (r.map fun found => (next.icache found.1).inum) =
    (s.store sb).resolve d (components path)
  directory : parent = true →
    (r.map fun found => ((next.icache found.1).inum, cstr found.2)) =
      (s.store sb).resolveParent d (components path)

def WalkStops (held : Multiset InodePtr) (s : FsState) (stop : FsStop) : Prop :=
  stop = .igetNoInodes ∧ s.shape.Crowded held

section Steps

variable {parent : Bool} {d : Nat} {rest : Path} {name : Name} {middle next : FsState}
variable {r : Option (InodePtr × Name)}

theorem Walked.fail (hafter : After sb held held unlocked s next)
    (hstore : next.store sb = s.store sb)
    (hpath : components path = cstr name :: components rest)
    (hrest : parent = true → components rest ≠ [] ∨ ((s.store sb).inode d).type ≠ T_DIR)
    (hnone : (s.store sb).lookup d (cstr name) = none) :
    Walked sb parent held s d path none next where
  after := hafter
  store := hstore
  inode _ := by
    rw [hpath, Store.resolve_cons, hnone]
    rfl
  directory hparent := by
    rw [hpath]
    by_cases hlast : components rest = []
    · have htype := (hrest hparent).resolve_left (not_not.mpr hlast)
      rw [hlast, Store.resolveParent_last, if_neg htype]
      rfl
    · rw [Store.resolveParent_cons _ hlast, hnone]
      rfl

structure Turned (sb : Superblock) (held : Multiset InodePtr) (s : FsState) (d : Nat)
    (name : Name) (ip : InodePtr) (next : FsState) : Prop where
  after : After sb held (ip ::ₘ held) unlocked s next
  store : next.store sb = s.store sb
  lookup : (s.store sb).lookup d (cstr name) = some (next.icache ip).inum
  present : next.Present sb (next.icache ip).inum

theorem Turned.walked (h : Turned sb held s d name ip middle)
    (hpath : components path = cstr name :: components rest)
    (hrest : parent = true → components rest ≠ [])
    (hwalk : Walked sb parent held middle (middle.icache ip).inum rest r next) :
    Walked sb parent held s d path r next where
  after := h.after.trans hwalk.after
  store := hwalk.store.trans h.store
  inode hparent := by
    rw [hwalk.inode hparent, hpath, Store.resolve_cons, h.lookup, h.store]
    rfl
  directory hparent := by
    rw [hwalk.directory hparent, hpath, Store.resolveParent_cons _ (hrest hparent), h.lookup,
      h.store]
    rfl

end Steps

theorem unlocked_update (ip : InodePtr) (b : Bool) :
    Function.update (Function.update unlocked ip b) ip false = unlocked := by
  rw [Function.update_idem]
  exact Function.update_eq_self ..

structure Inside (sb : Superblock) (held : Multiset InodePtr) (ip : InodePtr)
    (s middle : FsState) : Prop where
  after : After sb (ip ::ₘ held) (ip ::ₘ held) (Function.update unlocked ip true) s middle
  store : middle.store sb = s.store sb
  valid : (middle.icache ip).valid = true

namespace Inside

variable {middle : FsState}

theorem inum (h : Inside sb held ip s middle) :
    (middle.icache ip).inum = (s.icache ip).inum := h.after.keeps.inum ip mem_pins

theorem type (h : Inside sb held ip s middle) :
    (middle.icache ip).di.type = ((s.store sb).inode (s.icache ip).inum).type := by
  rw [← (h.after.sound.works mem_pins h.valid).current, h.inum, h.store]

theorem held_subset : held ⊆ ip ::ₘ held := Multiset.subset_cons ..

theorem locked (h : Inside sb held ip s middle) : (middle.icache ip).locked = true := by
  have hlock := congrFun h.after.locked ip
  rw [Function.update_self] at hlock
  exact hlock

theorem stops {stop : FsStop} (h : Inside sb held ip s middle) (htree : s.Tree sb)
    (hpresent : s.Present sb (s.icache ip).inum)
    (htype : ((s.store sb).inode (s.icache ip).inum).type = T_DIR)
    (hstop : LookStops sb (ip ::ₘ held) (middle.icache ip).inum middle stop) :
    WalkStops held s stop := by
  cases hstop with
  | notDir hother =>
      rw [h.inum, h.store] at hother
      exact absurd htype hother
  | ragged hsize =>
      rw [h.inum, h.store] at hsize
      exact absurd (htree.whole _ hpresent.allocated htype) hsize
  | full hfull =>
      refine ⟨rfl, ?_⟩
      rw [← h.after.keeps.crowded]
      exact Shape.crowded_of_full hfull

theorem leave (h : Inside sb held ip s middle) (hpresent : s.Present sb (s.icache ip).inum) :
    Meets (iunlockput sb ip) (WalkStops held s) middle fun _ next =>
      After sb held held unlocked s next ∧ next.store sb = s.store sb := by
  have hkept := hpresent.kept.keeps h.after.keeps h.store
  rw [← h.inum] at hkept
  refine (meets_iunlockput h.after.sound (hkept.stays h.after.sound)).mono ?_ ?_
  · rintro _ ⟨-, hfree⟩
    rw [h.locked] at hfree
    cases hfree
  · rintro _ next ⟨hafter, hstore⟩
    rw [h.after.locked, unlocked_update] at hafter
    exact ⟨(h.after.mono held_subset).trans hafter, hstore.trans h.store⟩

theorem move (h : Inside sb held ip s middle) (htree : s.Tree sb)
    (hpresent : s.Present sb (s.icache ip).inum) {name : Name} {jp : InodePtr} {k : Nat}
    {found : FsState} (htype : ((s.store sb).inode (s.icache ip).inum).type = T_DIR)
    (hfound : (middle.store sb).findName (middle.icache ip).inum name = some k)
    (hinum : (found.icache jp).inum =
      ((middle.store sb).entry (middle.icache ip).inum k).inum.toNat)
    (hstore : found.store sb = middle.store sb)
    (hafter : After sb (ip ::ₘ held) (jp ::ₘ ip ::ₘ held) middle.shape.locked middle found) :
    Meets (iunlockput sb ip) (WalkStops held s) found fun _ next =>
      Turned sb held s (s.icache ip).inum name jp next := by
  have hlock := congrFun (hafter.locked.trans h.after.locked) ip
  rw [Function.update_self] at hlock
  have hsound := hafter.sound
  rw [Multiset.cons_swap] at hsound
  have hkeeps : Keeps (ip ::ₘ held) s found := h.after.keeps.trans hafter.keeps
  have hsame : found.store sb = s.store sb := hstore.trans h.store
  have hip : (found.icache ip).inum = (s.icache ip).inum := hkeeps.inum ip mem_pins
  have hkept := hpresent.kept.keeps hkeeps hsame
  rw [← hip] at hkept
  refine (meets_iunlockput hsound (hkept.stays hsound)).mono ?_ ?_
  · rintro _ ⟨-, hfree⟩
    rw [show (found.icache ip).locked = true from hlock] at hfree
    cases hfree
  · rintro _ next ⟨hdone, hlast⟩
    rw [hafter.locked, h.after.locked, unlocked_update] at hdone
    have hjp : (next.icache jp).inum = (found.icache jp).inum :=
      hdone.keeps.inum jp mem_pins
    have hall : Keeps held s next :=
      (hkeeps.mono held_subset).trans (hdone.keeps.mono held_subset)
    rw [h.inum, h.store] at hinum hfound
    refine ⟨⟨hdone.sound, hall, hdone.locked⟩, hlast.trans hsame, ?_, ?_⟩
    · rw [Store.lookup_eq htype, hfound, hjp, hinum]
      rfl
    · rw [hjp, hinum]
      have hne := (Store.findName_eq_some.mp hfound).2.1.1
      exact (htree.named _ hpresent.allocated htype k hne).keeps hall (hlast.trans hsame)

end Inside

theorem meets_lockTurn (h : Sound sb s (ip ::ₘ held)) (hfree : s.shape.locked = unlocked)
    (hpresent : s.Present sb (s.icache ip).inum) :
    Meets (ilock sb ip) (WalkStops held s) s fun _ middle => Inside sb held ip s middle := by
  refine (meets_ilock h mem_pins).mono ?_ ?_
  · rintro stop (⟨-, hlocked⟩ | ⟨-, hnone⟩)
    · rw [show (s.icache ip).locked = false from congrFun hfree ip] at hlocked
      cases hlocked
    · exact absurd hpresent.allocated hnone
  · rintro _ middle ⟨hafter, hstore, hvalid, -⟩
    rw [hfree] at hafter
    exact ⟨hafter, hstore, hvalid⟩

theorem meets_walk {parent : Bool} {turns : Nat} (last : Name)
    (h : Sound sb s (ip ::ₘ held)) (hfree : s.shape.locked = unlocked) (htree : s.Tree sb)
    (hpresent : s.Present sb (s.icache ip).inum) (hturns : path.length < turns)
    (hzero : (0 : Byte) ∉ path) :
    Meets (walk sb parent turns ip path last) (WalkStops held s) s
      (Walked sb parent held s (s.icache ip).inum path) := by
  induction turns generalizing s ip path last with
  | zero => omega
  | succ turns ih =>
      unfold walk
      split
      next hnone =>
        have hpath := skipelem_none hnone
        split
        next hparent =>
          refine Meets.bind ((meets_iput h (hpresent.kept.stays h)).mono ?_ fun _ _ => id) ?_
          · rintro stop ⟨-, hlocked⟩
            rw [show (s.icache ip).locked = false from congrFun hfree ip] at hlocked
            cases hlocked
          · rintro _ next ⟨hafter, hstore⟩
            rw [hfree] at hafter
            refine Meets.pure ⟨hafter, hstore, fun hfalse => ?_, fun _ => ?_⟩
            · rw [hparent] at hfalse
              cases hfalse
            · rw [hpath]
              rfl
        next hparent =>
          refine Meets.pure ⟨?_, rfl, fun _ => ?_, fun htrue => absurd htrue hparent⟩
          · rw [← hfree]
            exact h.after.mono Inside.held_subset
          · rw [hpath]
            rfl
      next name rest hsome =>
        obtain ⟨hpath, hshort, hzero, hlast⟩ := skipelem_some hzero hsome
        refine Meets.bind (meets_lockTurn h hfree hpresent) ?_
        intro _ middle hinside
        refine Meets.bind_ok (getInode_run ..) ?_
        rw [hinside.type]
        split
        next htype =>
          refine Meets.bind (hinside.leave hpresent) ?_
          rintro _ next ⟨hafter, hstore⟩
          exact Meets.pure (Walked.fail hafter hstore hpath (fun _ => .inr htype)
            (Store.lookup_of_not_dir htype _))
        next htype =>
          have hdir := not_not.mp htype
          split
          next hstop =>
            refine Meets.bind ((meets_iunlock hinside.after.sound mem_pins).mono ?_
              fun _ _ => id) ?_
            · rintro _ ⟨-, hopen⟩
              rw [hinside.locked] at hopen
              cases hopen
            · rintro _ next ⟨-, hafter, hstore⟩
              rw [hinside.after.locked, unlocked_update] at hafter
              have hdone := hinside.after.trans hafter
              refine Meets.pure ⟨hdone.mono Inside.held_subset, hstore.trans hinside.store,
                fun hfalse => ?_, fun _ => ?_⟩
              · rw [hstop.1] at hfalse
                cases hfalse
              · rw [hpath, hlast.mp hstop.2, Store.resolveParent_last, if_pos hdir,
                  ← hdone.keeps.inum ip mem_pins]
                rfl
          next hgo =>
            have hrest : parent = true → components rest ≠ [] := fun hparent hnil =>
              hgo ⟨hparent, hlast.mpr hnil⟩
            refine Meets.bind ((meets_dirlookup hinside.after.sound mem_pins hinside.valid
              name).mono (fun _ hstop => hinside.stops htree hpresent hdir hstop)
              fun _ _ => id) ?_
            rintro r found ⟨-, hlooked⟩
            cases hlooked with
            | missing hmiss =>
                refine Meets.bind (hinside.leave hpresent) ?_
                rintro _ next ⟨hafter, hstore⟩
                refine Meets.pure (Walked.fail hafter hstore hpath
                  (fun hparent => .inl (hrest hparent)) ?_)
                rw [hinside.inum, hinside.store] at hmiss
                rw [Store.lookup_eq hdir, hmiss]
                rfl
            | found jp k _ hfound hinum hstore hafter =>
                refine Meets.bind
                  (hinside.move htree hpresent hdir hfound hinum hstore hafter) ?_
                intro _ next hturned
                have hwalk := ih name hturned.after.sound hturned.after.locked
                  (htree.keeps hturned.after.keeps hturned.store) hturned.present
                  (Nat.lt_of_lt_of_le hshort (Nat.le_of_lt_succ hturns)) hzero
                refine hwalk.mono (fun _ hstop => ⟨hstop.1, ?_⟩)
                  fun _ _ hwalked => hturned.walked hpath hrest hwalked
                rw [← hturned.after.keeps.crowded]
                exact hstop.2

end Walk

end KernelThreads.Fs
