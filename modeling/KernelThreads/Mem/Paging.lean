import KernelThreads.Mem.Page

namespace KernelThreads

open Lib

/-! Page directories and tables, `vm.c`.  Virtual addresses are numbers below
`2 ^ 32`; no page directory reaches an address where rounding would wrap. -/

def pdx (va : Nat) : Index := ⟨va / 2 ^ 22 % 1024, Nat.mod_lt _ (by decide)⟩

def ptx (va : Nat) : Index := ⟨va / PGSIZE % 1024, Nat.mod_lt _ (by decide)⟩

def pgRoundDown (a : Nat) : Nat := a / PGSIZE * PGSIZE

def pgRoundUp (a : Nat) : Nat := (a + PGSIZE - 1) / PGSIZE * PGSIZE

def sub32 (a b : Nat) : Nat := (a + 2 ^ 32 - b % 2 ^ 32) % 2 ^ 32

abbrev PteAddr := Frame × Index

def Mem.pte (m : Mem) (pgdir : Frame) (va : Nat) : Word :=
  let pde := m.page pgdir (pdx va)
  if pde.has PTE_P then m.page pde.addr (ptx va) else 0

def walkpgdir (pgdir : Frame) (va : Nat) (alloc : Bool) :
    MemProgram (Option PteAddr) := do
  let pde ← load pgdir (pdx va)
  if pde.has PTE_P then
    return some (pde.addr, ptx va)
  else if !alloc then
    return none
  else
    match ← kalloc with
    | none => return none
    | some pgtab =>
        memset pgtab 0
        store pgdir (pdx va) (.pte pgtab (PTE_P ||| PTE_W ||| PTE_U))
        return some (pgtab, ptx va)

/-- One turn of the loop of `mappages`; false when there is no memory. -/
def mapPage (pgdir : Frame) (a : Nat) (frame : Frame) (perm : PteFlags) :
    MemProgram Bool := do
  match ← walkpgdir pgdir a true with
  | none => return false
  | some (table, i) =>
      let pte ← load table i
      if pte.has PTE_P then
        throw .remap
      else
        store table i (.pte frame (perm ||| PTE_P))
        return true

def mapPages (pgdir : Frame) (perm : PteFlags) :
    Nat → Nat → Frame → MemProgram Bool
  | 0, a, frame => mapPage pgdir a frame perm
  | more + 1, a, frame => do
      if ← mapPage pgdir a frame perm then
        mapPages pgdir perm more (a + PGSIZE) (frame + 1)
      else
        return false

def mappages (pgdir : Frame) (va size : Nat) (frame : Frame) (perm : PteFlags) :
    MemProgram Bool :=
  let a := pgRoundDown va
  let last := pgRoundDown (sub32 (va + size) 1)
  mapPages pgdir perm (sub32 last a / PGSIZE) a frame

/-- The loop of `deallocuvm`.  Every turn moves `a` by a page or more, so the
number of pages up to `oldsz` bounds the turns. -/
def deallocPages (pgdir : Frame) (oldsz : Nat) : Nat → Nat → MemProgram Unit
  | 0, _ => return ()
  | turns + 1, a => do
      if a < oldsz then
        match ← walkpgdir pgdir a false with
        | none => deallocPages pgdir oldsz turns ((a / 2 ^ 22 + 1) * 2 ^ 22)
        | some (table, i) =>
            let pte ← load table i
            if pte.has PTE_P then
              if pte.addr = 0 then
                throw .kfree
              else
                kfree pte.addr
                store table i 0
                deallocPages pgdir oldsz turns (a + PGSIZE)
            else
              deallocPages pgdir oldsz turns (a + PGSIZE)
      else
        return ()

def deallocuvm (pgdir : Frame) (oldsz newsz : Nat) : MemProgram Nat := do
  if oldsz ≤ newsz then
    return oldsz
  else
    deallocPages pgdir oldsz (oldsz / PGSIZE + 1) (pgRoundUp newsz)
    return newsz

def freeTables (pgdir : Frame) : List Index → MemProgram Unit
  | [] => return ()
  | i :: rest => do
      let pde ← load pgdir i
      if pde.has PTE_P then
        kfree pde.addr
        freeTables pgdir rest
      else
        freeTables pgdir rest

def freevm : Option Frame → MemProgram Unit
  | none => throw .freevm
  | some pgdir => do
      let _ ← deallocuvm pgdir KERNBASE 0
      freeTables pgdir (List.finRange 1024)
      kfree pgdir

structure Kmap where
  virt : Nat
  physStart : Nat
  physEnd : Nat
  perm : PteFlags

def kmap (image : Image) : List Kmap :=
  let data := image.data.toNat * PGSIZE
  [⟨KERNBASE, 0, EXTMEM, PTE_W⟩,
    ⟨KERNBASE + EXTMEM, EXTMEM, data, 0⟩,
    ⟨KERNBASE + data, data, PHYSTOP, PTE_W⟩,
    ⟨DEVSPACE, DEVSPACE, 0, PTE_W⟩]

def mapKernel (pgdir : Frame) : List Kmap → MemProgram (Option Frame)
  | [] => return some pgdir
  | k :: rest => do
      if ← mappages pgdir k.virt (sub32 k.physEnd k.physStart)
          (.ofNat 20 (k.physStart / PGSIZE)) k.perm then
        mapKernel pgdir rest
      else
        freevm (some pgdir)
        return none

def setupkvm : MemProgram (Option Frame) := do
  match ← kalloc with
  | none => return none
  | some pgdir =>
      memset pgdir 0
      let m ← get
      mapKernel pgdir (kmap m.image)

def allocPages (pgdir : Frame) (oldsz newsz : Nat) :
    Nat → Nat → MemProgram Nat
  | 0, _ => return newsz
  | turns + 1, a => do
      if a < newsz then
        match ← kalloc with
        | none =>
            let _ ← deallocuvm pgdir newsz oldsz
            return 0
        | some mem =>
            memset mem 0
            if ← mappages pgdir a PGSIZE mem (PTE_W ||| PTE_U) then
              allocPages pgdir oldsz newsz turns (a + PGSIZE)
            else
              let _ ← deallocuvm pgdir newsz oldsz
              kfree mem
              return 0
      else
        return newsz

def allocuvm (pgdir : Frame) (oldsz newsz : Nat) : MemProgram Nat := do
  if KERNBASE ≤ newsz then
    return 0
  else if newsz < oldsz then
    return oldsz
  else
    allocPages pgdir oldsz newsz (newsz / PGSIZE + 1) (pgRoundUp oldsz)

def clearpteu (pgdir : Frame) (uva : Nat) : MemProgram Unit := do
  match ← walkpgdir pgdir uva false with
  | none => throw .clearpteu
  | some (table, i) =>
      let pte ← load table i
      store table i (.pte pte.addr (pte.flags &&& ~~~PTE_U))

def copyPages (d pgdir : Frame) (sz : Nat) :
    Nat → Nat → MemProgram (Option Frame)
  | 0, _ => return some d
  | turns + 1, i => do
      if i < sz then
        match ← walkpgdir pgdir i false with
        | none => throw .copyuvm
        | some (table, j) =>
            let pte ← load table j
            if !pte.has PTE_P then
              throw .copyuvm
            else
              match ← kalloc with
              | none =>
                  freevm (some d)
                  return none
              | some mem =>
                  copyPage mem pte.addr
                  if ← mappages d i PGSIZE mem pte.flags then
                    copyPages d pgdir sz turns (i + PGSIZE)
                  else
                    kfree mem
                    freevm (some d)
                    return none
      else
        return some d

def copyuvm (pgdir : Frame) (sz : Nat) : MemProgram (Option Frame) := do
  match ← setupkvm with
  | none => return none
  | some d => copyPages d pgdir sz (sz / PGSIZE + 1) 0

end KernelThreads
