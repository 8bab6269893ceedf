import KernelThreads.Fs.Path

namespace KernelThreads.Fs

open Lib Program

/-! `namei` and `nameiparent` against the meaning of a path. -/

section Slashes

theorem components_append (front rest : Path) :
    components (front ++ SLASH :: rest) = components front ++ components rest := by
  have hsplit : (front ++ SLASH :: rest).splitOn SLASH =
      front.splitOn SLASH ++ rest.splitOn SLASH := by
    unfold List.splitOn
    exact List.splitOnP_append_cons _ _ (by simp)
  unfold components
  rw [hsplit, List.filter_append, List.map_append]

theorem components_repeated (front rest : Path) :
    components (front ++ SLASH :: SLASH :: rest) = components (front ++ SLASH :: rest) := by
  rw [components_append, components_append, components_slash]

theorem components_trailing (path : Path) :
    components (path ++ [SLASH]) = components path := by
  rw [components_append, components_nil, List.append_nil]

end Slashes

def startOf (cwd : Nat) (path : Path) : Nat :=
  if path.head? = some SLASH then ROOTINO else cwd

section Namex

variable {sb : Superblock} {s next : FsState} {held : Multiset InodePtr} {p : Slot}
variable {ip cwd : InodePtr} {path : Path} {d : Nat}

theorem FsState.Tree.present_cwd (h : s.Tree sb) (hcwd : (s.proc p).cwd = some cwd) :
    s.Present sb (s.icache cwd).inum :=
  ⟨h.cwd p cwd hcwd, .inr ⟨cwd, Shape.pins_of_cwd (p := p) hcwd, rfl⟩⟩

theorem FsState.Tree.present_start (h : s.Tree sb) (hcwd : (s.proc p).cwd = some cwd)
    (path : Path) : s.Present sb (startOf (s.icache cwd).inum path) := by
  unfold startOf
  split
  · exact h.root
  · exact h.present_cwd hcwd

theorem meets_walkFrom (hafter : After sb held (ip ::ₘ held) unlocked s next)
    (hstore : next.store sb = s.store sb) (hinum : (next.icache ip).inum = d)
    (htree : s.Tree sb) (hpresent : s.Present sb d) (hzero : (0 : Byte) ∉ path)
    (parent : Bool) (last : Name) :
    Meets (walk sb parent (path.length + 1) ip path last) (WalkStops held s) next
      (Walked sb parent held s d path) := by
  subst hinum
  refine (meets_walk _ hafter.sound hafter.locked (htree.keeps hafter.keeps hstore)
    (hpresent.keeps hafter.keeps hstore) (Nat.lt_succ_self _) hzero).mono ?_ ?_
  · rintro stop ⟨hstop, hcrowded⟩
    exact ⟨hstop, hafter.keeps.crowded.mp hcrowded⟩
  · intro r last hwalked
    refine ⟨hafter.trans hwalked.after, hwalked.store.trans hstore, ?_, ?_⟩
    · intro hparent
      rw [hwalked.inode hparent, hstore]
    · intro hparent
      rw [hwalked.directory hparent, hstore]

theorem meets_namex (hsb : sb.Sound) (h : Sound sb s held)
    (hfree : s.shape.locked = unlocked) (htree : s.Tree sb)
    (hcwd : (s.proc p).cwd = some cwd) (hzero : (0 : Byte) ∉ path) (parent : Bool) :
    Meets (namex sb p path parent) (WalkStops held s) s
      (Walked sb parent held s (startOf (s.icache cwd).inum path) path) := by
  have hpresent := htree.present_start hcwd path
  unfold namex
  unfold startOf at hpresent ⊢
  by_cases hslash : path.head? = some SLASH
  · rw [if_pos hslash] at hpresent ⊢
    rw [if_pos hslash]
    refine Meets.bind ((meets_iget h hsb.root).mono ?_ fun _ _ => id) ?_
    · rintro _ ⟨rfl, hfull⟩
      exact ⟨rfl, 0, fun jp _ => hfull jp⟩
    · rintro ip next ⟨hafter, hstore, hinum⟩
      rw [hfree] at hafter
      exact meets_walkFrom hafter hstore hinum htree hpresent hzero parent _
  · rw [if_neg hslash] at hpresent ⊢
    rw [if_neg hslash]
    have hpin : s.shape.Pins held cwd := .inl (Shape.pins_of_cwd (p := p) hcwd)
    refine Meets.bind_ok rfl ?_
    rw [hcwd]
    refine Meets.bind (meets_idup h hpin) ?_
    rintro ip next ⟨rfl, hafter, hstore⟩
    rw [hfree] at hafter
    exact meets_walkFrom hafter hstore (hafter.keeps.inum ip hpin) htree hpresent hzero
      parent _

/-- In a tree `namei` returns the inode that the names of the path lead to, and
`nameiparent` the directory of its last name with that name; both keep every file.
They can only stop when at most one entry of the inode cache is free. -/
theorem namei_resolves (hsb : sb.Sound) (h : Sound sb s held)
    (hfree : s.shape.locked = unlocked) (htree : s.Tree sb)
    (hcwd : (s.proc p).cwd = some cwd) (hzero : (0 : Byte) ∉ path) :
    Meets (namei sb p path) (fun stop => stop = .igetNoInodes ∧ s.shape.Crowded held) s
        (fun r next => next.store sb = s.store sb ∧
          (r.map fun ip => (next.icache ip).inum) =
            (s.store sb).resolve (startOf (s.icache cwd).inum path) (components path)) ∧
      Meets (nameiparent sb p path) (fun stop => stop = .igetNoInodes ∧ s.shape.Crowded held)
        s (fun r next => next.store sb = s.store sb ∧
          (r.map fun found => ((next.icache found.1).inum, cstr found.2)) =
            (s.store sb).resolveParent (startOf (s.icache cwd).inum path)
              (components path)) ∧
      (∀ front rest, components (front ++ SLASH :: SLASH :: rest) =
        components (front ++ SLASH :: rest)) ∧
      components (path ++ [SLASH]) = components path := by
  have hnamex := meets_namex hsb h hfree htree hcwd hzero
  refine ⟨?_, ?_, components_repeated, components_trailing path⟩
  · refine Meets.bind (hnamex false) ?_
    intro r next hwalked
    refine Meets.pure ⟨hwalked.store, ?_⟩
    rw [Option.map_map]
    exact hwalked.inode rfl
  · refine (hnamex true).weaken ?_
    intro r next hwalked
    exact ⟨hwalked.store, hwalked.directory rfl⟩

end Namex

namespace Sample

def sb : Superblock where
  size := 8
  ninodes := 8
  inodestart := 2
  bmapstart := 4

def entries : Nat → Dirent
  | 0 => { inum := 1, name := DOT }
  | 1 => { inum := 1, name := DOTDOT }
  | 2 => { inum := 2, name := nameOf [102] }
  | _ => {}

def root : Dinode where
  type := T_DIR
  nlink := 1
  size := 48
  addrs := Function.update (fun _ => 0) 0 5

def file : Dinode where
  type := T_FILE
  nlink := 1

def table (i : Nat) : Dinode := if i = 1 then root else if i = 2 then file else {}

def disk (b : Nat) : Block :=
  if b = 2 then putDinode (putDinode (fun _ => 0) 1 root) 2 file
  else if b = 4 then fun j => if j.val = 0 then 0x3f else 0
  else if b = 5 then fun j => (entries (j.val / DESIZE)).bytes.getD (j.val % DESIZE) 0
  else fun _ => 0

def state (ftable : FilePtr → File) : FsState where
  disk := disk
  icache ip := if ip = 0 then { inum := 1, ref := 1 } else {}
  ftable := ftable
  proc := setSlot (fun _ => {}) 0 { cwd := some 0 }

theorem sound_sb : sb.Sound := by
  constructor <;> decide

theorem tableOf_disk : tableOf sb disk = table := by
  have hzero : ∀ slot, getDinode (fun _ => 0) slot = {} := by
    intro slot
    simp [getDinode, Bytes.word, Bytes.byte]
  funext i
  by_cases hi : i < 8
  · have hblock : sb.iblock i = 2 := by
      simp only [Superblock.iblock, sb, IPB]
      omega
    have hslot : i % IPB = i := Nat.mod_eq_of_lt hi
    rw [tableOf_of_lt hi, hblock, hslot, disk, if_pos rfl, table]
    split
    next hone =>
      rw [hone, getDinode_putDinode_other _ _ (by decide),
        getDinode_putDinode_same _ _ (by decide)]
    next hone =>
      split
      next htwo => rw [htwo, getDinode_putDinode_same _ _ (by decide)]
      next htwo =>
        rw [getDinode_putDinode_other _ _ htwo, getDinode_putDinode_other _ _ hone, hzero]
  · rw [table, if_neg (by omega), if_neg (by omega)]
    exact if_neg hi

theorem bitsOf_disk (b : Nat) : bitsOf sb disk b = decide (b < 6 ∨ 8 ≤ b) := by
  have hbits : ∀ b : Fin 8, bitsOf sb disk b = decide (b.val < 6 ∨ 8 ≤ b.val) := by decide
  by_cases hb : b < 8
  · exact hbits ⟨b, hb⟩
  · have hout : ¬b < sb.size := hb
    rw [bitsOf, if_neg hout, eq_comm, decide_eq_true_eq]
    omega

section State

variable {ftable : FilePtr → File}

theorem synced_state : (state ftable).Synced sb := by
  intro ip _ hvalid
  change (if ip = 0 then ({ inum := 1, ref := 1 } : Inode) else {}).valid = true at hvalid
  split at hvalid <;> cases hvalid

theorem inode_state : ((state ftable).store sb).inode = table :=
  synced_state.inode.trans tableOf_disk

theorem data_state :
    ((state ftable).store sb).data 5 = fun j =>
      (entries (j.val / DESIZE)).bytes.getD (j.val % DESIZE) 0 := rfl

theorem allocated_state {i : Nat} (h : ((state ftable).store sb).Allocated sb i) :
    i = 1 ∨ i = 2 := by
  have htype := h.2
  rw [inode_state, table] at htype
  split at htype
  next hone => exact .inl hone
  next =>
    split at htype
    next htwo => exact .inr htwo
    next => exact absurd rfl htype

theorem allocated_one : ((state ftable).store sb).Allocated sb 1 := by
  refine ⟨by decide, ?_⟩
  rw [inode_state]
  decide

theorem allocated_two : ((state ftable).store sb).Allocated sb 2 := by
  refine ⟨by decide, ?_⟩
  rw [inode_state]
  decide

theorem pointer_state {i : Nat} {r : Ref} (h : ((state ftable).store sb).Allocated sb i)
    (hne : ((state ftable).store sb).pointer i r ≠ 0) :
    (i, r) = (1, .addr 0) ∧ ((state ftable).store sb).pointer i r = 5 := by
  have htable : ∀ i, i = 1 ∨ i = 2 → ∀ k, (table i).addrs k ≠ 0 →
      i = 1 ∧ k = 0 ∧ (table i).addrs k = 5 := by
    rintro i (rfl | rfl)
    · decide
    · decide
  cases r with
  | addr k =>
      simp only [Store.pointer, inode_state] at hne ⊢
      obtain ⟨hi, hk, haddr⟩ := htable i (allocated_state h) k hne
      rw [hi, hk] at haddr ⊢
      exact ⟨rfl, haddr⟩
  | word j =>
      have hlast : (table i).addrs (Fin.last NDIRECT) = 0 := by
        rcases allocated_state h with rfl | rfl <;> rfl
      simp only [Store.pointer, inode_state, hlast] at hne
      exact absurd rfl hne

theorem owned_state : ((state ftable).store sb).Owned sb := by
  have hfirst : ((state ftable).store sb).pointer 1 (.addr 0) = 5 := by
    simp only [Store.pointer, inode_state]
    decide
  refine ⟨?_, ?_, ?_⟩
  · rintro ⟨i, r⟩ ⟨j, q⟩ b hi hj
    obtain ⟨halloc, hne, -⟩ := Store.owner_eq_some.mp hi
    obtain ⟨halloc', hne', -⟩ := Store.owner_eq_some.mp hj
    exact (pointer_state halloc hne).1.trans (pointer_state halloc' hne').1.symm
  · rintro ⟨i, r⟩ b hi
    obtain ⟨halloc, hne, hb⟩ := Store.owner_eq_some.mp hi
    rw [(pointer_state halloc hne).2] at hb
    subst hb
    rintro (hlow | hhigh)
    · exact absurd hlow (by decide)
    · exact absurd hhigh (by decide)
  · intro b
    have hbit : ((state ftable).store sb).bit b = bitsOf sb disk b := rfl
    have howner : (∃ place, ((state ftable).store sb).owner sb place = some b) ↔ b = 5 := by
      constructor
      · rintro ⟨⟨i, r⟩, hi⟩
        obtain ⟨halloc, hne, hb⟩ := Store.owner_eq_some.mp hi
        rw [(pointer_state halloc hne).2] at hb
        exact hb.symm
      · rintro rfl
        refine ⟨(1, .addr 0), Store.owner_eq_some.mpr ⟨allocated_one, ?_, ?_⟩⟩
        · rw [hfirst]
          decide
        · rw [hfirst]
          rfl
    have hnmeta : sb.nmeta = 5 := rfl
    have hsize : sb.size = 8 := rfl
    rw [hbit, bitsOf_disk, howner, decide_eq_true_eq, Superblock.Reserved, hnmeta, hsize]
    omega

theorem size_state (i : Nat) :
    ((state ftable).store sb).size i = if i = 1 then 48 else 0 := by
  unfold Store.size
  rw [inode_state, table]
  split
  · rfl
  · split <;> rfl

theorem block_state : ((state ftable).store sb).block 1 0 = 5 := by
  rw [Store.block_eq (r := .addr 0) rfl]
  simp only [Store.pointer, inode_state]
  decide

theorem mapped_state : ((state ftable).store sb).Mapped sb := by
  intro i _ bn hbn
  rw [size_state] at hbn
  split at hbn
  next hone =>
    have hzero : bn = 0 := by
      simp only [BSIZE] at hbn
      omega
    rw [hone, hzero, block_state]
    decide
  next => omega

theorem count_state : ((state ftable).store sb).count 1 = 3 := by
  unfold Store.count
  rw [size_state]
  rfl

theorem entry_state (k : Nat) : ((state ftable).store sb).entry 1 k = entries k := by
  have hcount := @count_state ftable
  by_cases hk : k < 3
  · rw [Store.entry_eq (l := (entries k).bytes) (by omega), Dirent.ofBytes_bytes]
    intro j hj
    simp only [DESIZE] at hj
    have hlow : k * DESIZE + j < BSIZE := by
      simp only [DESIZE, BSIZE]
      omega
    have hdiv : (k * DESIZE + j) / DESIZE = k := by
      simp only [DESIZE]
      omega
    have hmod : (k * DESIZE + j) % DESIZE = j := by
      simp only [DESIZE]
      omega
    rw [Store.getD_contents (by rw [size_state, if_pos rfl]; simp only [DESIZE]; omega),
      Store.byteAt, Nat.div_eq_of_lt hlow, Nat.mod_eq_of_lt hlow, block_state,
      Bytes.byte_of_lt _ hlow]
    change ((state ftable).store sb).data 5 _ = _
    rw [data_state]
    simp only [hdiv, hmod]
  · rw [Store.entry_of_le (by omega)]
    obtain ⟨j, rfl⟩ := Nat.exists_eq_add_of_le' (Nat.le_of_not_lt hk)
    rfl

theorem dir_state {d : Nat} (h : ((state ftable).store sb).Allocated sb d)
    (htype : (((state ftable).store sb).inode d).type = T_DIR) : d = 1 := by
  rcases allocated_state h with rfl | rfl
  · rfl
  · rw [inode_state] at htype
    exact absurd htype (by decide)

theorem entries_lt (k : Nat) : (entries k).inum.toNat < 8 := by
  match k with
  | 0 => decide
  | 1 => decide
  | 2 => decide
  | k + 3 => exact (by decide : (0 : BitVec 16).toNat < 8)

theorem sound_state (hfiles : ∀ f, (ftable f).type ≠ .inode)
    (hclosed : ∀ f, (ftable f).ref = 0 → (ftable f).type = .none) :
    Sound sb (state ftable) 0 := by
  have hopens : ∀ f ip, (ftable f).opens ip = false := by
    intro f ip
    simp [File.opens, hfiles f]
  have hpointers : ∀ ip, (state ftable).shape.pointers ip = if ip = 0 then 1 else 0 := by
    intro ip
    have hfile : (countSlots fun f => ((state ftable).shape.ftable f).opens ip) = 0 :=
      countSlots_eq_zero fun f => hopens f ip
    have hcwd := countSlots_setSlot (fun _ : Slot => ({} : FsProc)) 0 { cwd := some 0 }
      fun proc => proc.cwd = some ip
    have hnone : (countSlots fun _ : Slot => decide (({} : FsProc).cwd = some ip)) = 0 :=
      countSlots_eq_zero fun _ => rfl
    change _ + 0 = _ at hcwd
    rw [hnone, Nat.zero_add] at hcwd
    unfold Shape.pointers
    rw [hfile, Nat.zero_add]
    refine hcwd.trans ?_
    simp [eq_comm]
  have hlive : ∀ ip, 0 < (state ftable).shape.ref ip → ip = 0 := by
    intro ip hpos
    change 0 < (if ip = 0 then ({ inum := 1, ref := 1 } : Inode) else {}).ref at hpos
    split at hpos
    next hzero => exact hzero
    next => exact absurd hpos (by decide)
  refine ⟨⟨?_, ?_, ?_, hclosed, fun f hf => absurd hf (hfiles f), ?_⟩, synced_state,
    owned_state, mapped_state, ?_, ?_, ?_⟩
  · intro ip
    rw [hpointers, Multiset.count_zero, Nat.add_zero]
    change (if ip = 0 then ({ inum := 1, ref := 1 } : Inode) else {}).ref = _
    split <;> rfl
  · intro ip jp hip hjp _
    rw [hlive ip hip, hlive jp hjp]
  · intro ip hip
    rw [hlive ip hip]
    exact (by decide : 1 < 8)
  · intro f ip hf
    change (ftable f).opens ip = true at hf
    rw [hopens] at hf
    cases hf
  · intro d hd htype k
    rw [dir_state hd htype, entry_state]
    exact entries_lt k
  · intro ip _ hvalid
    change (if ip = 0 then ({ inum := 1, ref := 1 } : Inode) else {}).valid = true at hvalid
    split at hvalid <;> cases hvalid
  · intro f ip hf
    change (ftable f).opens ip = true at hf
    rw [hopens] at hf
    cases hf

theorem present_one : (state ftable).Present sb 1 := by
  refine ⟨allocated_one, .inl ?_⟩
  rw [inode_state]
  decide

theorem present_two : (state ftable).Present sb 2 := by
  refine ⟨allocated_two, .inl ?_⟩
  rw [inode_state]
  decide

theorem cwd_state {p : Slot} {ip : InodePtr} (h : ((state ftable).proc p).cwd = some ip) :
    ip = 0 := by
  change (setSlot (fun _ => {}) 0 { cwd := some 0 } p : FsProc).cwd = some ip at h
  rw [setSlot_apply] at h
  split at h
  · exact (Option.some.inj h).symm
  · cases h

theorem cwd_first : ((state ftable).proc 0).cwd = some 0 :=
  congrArg FsProc.cwd (setSlot_same ..)

theorem lookup_state (name : List Byte) :
    ((state ftable).store sb).lookup 1 name =
      ((List.range 3).find? fun k =>
        (entries k).inum ≠ 0 ∧ cstr (entries k).name = name).map fun k =>
          (entries k).inum.toNat := by
  have htype : (((state ftable).store sb).inode 1).type = T_DIR := by
    rw [inode_state]
    decide
  unfold Store.lookup
  rw [if_pos htype, count_state]
  simp only [entry_state]

theorem tree_state : (state ftable).Tree sb where
  root := present_one
  whole d hd htype := by
    rw [dir_state hd htype, size_state]
    rfl
  named d hd htype k hne := by
    rw [dir_state hd htype, entry_state] at hne ⊢
    match k with
    | 0 => exact present_one
    | 1 => exact present_one
    | 2 => exact present_two
    | k + 3 => exact absurd rfl hne
  cwd p ip hp := by
    rw [cwd_state hp]
    exact allocated_one

theorem unlocked_state : (state ftable).shape.locked = unlocked := by
  funext ip
  change (if ip = 0 then ({ inum := 1, ref := 1 } : Inode) else {}).locked = _
  split <;> rfl

end State

abbrev idle : FsState := state fun _ => {}

theorem sound_idle : Sound sb idle 0 :=
  sound_state (fun _ hinode => nomatch hinode) fun _ _ => rfl

theorem uncrowded_idle : ¬idle.shape.Crowded 0 := by
  rintro ⟨ip, hpins⟩
  have hfree : ∀ jp : InodePtr, jp ≠ 0 → ¬idle.shape.Pins 0 jp := by
    intro jp hne hpin
    have hpos := sound_idle.counted.pins_iff.mp hpin
    change 0 < (if jp = 0 then ({ inum := 1, ref := 1 } : Inode) else {}).ref at hpos
    rw [if_neg hne] at hpos
    exact absurd hpos (by decide)
  by_cases hone : ip = 1
  · exact hfree 2 (by decide) (hpins 2 (by rw [hone]; decide))
  · exact hfree 1 (by decide) (hpins 1 (Ne.symm hone))

end Sample

/-- The path `//f/` names the file. -/
theorem namei_resolves_file :
    ∃ ip next, namei Sample.sb 0 [SLASH, SLASH, 102, SLASH] Sample.idle = .ok (some ip, next) ∧
      next.store Sample.sb = Sample.idle.store Sample.sb ∧ (next.icache ip).inum = 2 := by
  have hcomponents : components [SLASH, SLASH, 102, SLASH] = [[102]] := by decide
  have hfile : (Sample.idle.store Sample.sb).resolve ROOTINO [[102]] = some 2 := by
    rw [Store.resolve_cons, Sample.lookup_state]
    decide
  have hstart : startOf (Sample.idle.icache 0).inum [SLASH, SLASH, 102, SLASH] = ROOTINO :=
    rfl
  have hzero : (0 : Byte) ∉ [SLASH, SLASH, 102, SLASH] := by decide
  have hsound := Sample.sound_idle
  have hfree : Sample.idle.shape.locked = unlocked := Sample.unlocked_state
  have htree : Sample.idle.Tree Sample.sb := Sample.tree_state
  have hcwd : (Sample.idle.proc 0).cwd = some 0 := Sample.cwd_first
  have hroom := Sample.uncrowded_idle
  -- Nothing below may run the program.
  generalize Sample.idle = s at *
  have hmeets := namei_resolves Sample.sound_sb hsound hfree htree hcwd hzero
  obtain ⟨r, next, hrun, hstore, hinum⟩ :=
    (hmeets.1.mono (fun _ hstop => hroom hstop.2) fun _ _ => id).returns
  rw [hcomponents, hstart, hfile] at hinum
  obtain ⟨ip, rfl, hip⟩ := Option.map_eq_some_iff.mp hinum
  exact ⟨ip, next, hrun, hstore, hip⟩

/-- In `f/x`, the names before the last lead to a file.  `nameiparent` does not return
it. -/
theorem nameiparent_of_file :
    Sample.sb.Sound ∧ Sound Sample.sb Sample.idle 0 ∧
      Sample.idle.shape.locked = unlocked ∧ Sample.idle.Tree Sample.sb ∧
      (Sample.idle.proc 0).cwd = some 0 ∧ (Sample.idle.icache 0).inum = 1 ∧
      components [102, SLASH, 120] = [[102], [120]] ∧
      (Sample.idle.store Sample.sb).resolve 1 [[102]] = some 2 ∧
      ∃ next, nameiparent Sample.sb 0 [102, SLASH, 120] Sample.idle = .ok (none, next) := by
  have hcomponents : components [102, SLASH, 120] = [[102], [120]] := by decide
  have hfind : (Sample.idle.store Sample.sb).lookup 1 [102] = some 2 := by
    rw [Sample.lookup_state]
    decide
  have htype : ((Sample.idle.store Sample.sb).inode 2).type ≠ T_DIR := by
    rw [Sample.inode_state]
    decide
  have hfile : (Sample.idle.store Sample.sb).resolve 1 [[102]] = some 2 := by
    rw [Store.resolve_cons, hfind]
    rfl
  have hstart : startOf (Sample.idle.icache 0).inum [102, SLASH, 120] = 1 := rfl
  have hmeets := meets_namex Sample.sound_sb Sample.sound_idle Sample.unlocked_state
    Sample.tree_state Sample.cwd_first (by decide : (0 : Byte) ∉ [102, SLASH, 120]) true
  rw [hstart] at hmeets
  obtain ⟨r, next, hrun, hwalked⟩ :=
    (hmeets.mono (fun _ hstop => Sample.uncrowded_idle hstop.2) fun _ _ => id).returns
  have hnone := hwalked.directory rfl
  rw [hcomponents, Store.resolveParent_cons _ (List.cons_ne_nil _ _), hfind,
    Option.bind_some, Store.resolveParent_last, if_neg htype, Option.map_eq_none_iff] at hnone
  subst hnone
  exact ⟨Sample.sound_sb, Sample.sound_idle, Sample.unlocked_state, Sample.tree_state,
    Sample.cwd_first, rfl, hcomponents, hfile, next, hrun⟩

end KernelThreads.Fs
