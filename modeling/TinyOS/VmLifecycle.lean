import Mathlib.Algebra.Order.BigOperators.Group.Finset
import TinyOS.Lib.Progress
import TinyOS.Lib.Rendezvous

/-! From `vm_run` to its return: the threads of the cores and of the PIC daemon, and the two
barriers between which the kernel boots, runs and stops. -/

namespace TinyOS

open Transition Rendezvous

/-- Where a core is in `core_thread`: `boot` and `sync` are `boot_tinyos_kernel` before its barrier,
`scheduler` is `run_scheduler`, and `exited` is the end of its thread. -/
inductive VmPc
  | absent
  | start
  | inSystem
  | boot
  | sync
  | inCore
  | scheduler
  | stop
  | inCoreAgain
  | close
  | finish
  | inSystemAgain
  | exited
deriving DecidableEq

/-- Where the thread of `vm_run` is: creating core `c`, in `PIC_daemon`, or joining core `c`. -/
inductive PicLife
  | launching (c : Nat)
  | inSystem
  | loop
  | finish
  | inSystemAgain
  | joining (c : Nat)
  | ended
deriving DecidableEq

/-- `faulted` says that a signal was sent to a thread that there was not, or a barrier destroyed
with a thread inside. -/
structure Vm where
  ncores : Nat
  pc : Nat → VmPc
  pic : PicLife
  system : Rendezvous.Barrier
  core : Rendezvous.Barrier
  picActive : Bool
  booted : Bool
  faulted : Bool

/-- `raise c` is an interrupt from the loop of the PIC daemon, and `ici d c` one from core `d`, also
by `cpu_core_restart`. -/
inductive VmEvent
  | run (c : Nat)
  | pic
  | raise (c : Nat)
  | ici (d c : Nat)
deriving DecidableEq

def Vm.goto (m : Vm) (c : Nat) (pc : VmPc) : Vm := { m with pc := Function.update m.pc c pc }

def Vm.signal (m : Vm) (c : Nat) : Vm :=
  { m with faulted := m.faulted || m.pc c = .absent || m.pc c = .exited }

/-- The next step of core `c`. It leaves the scheduler when there are no active threads. -/
def Vm.run (m : Vm) (c : Nat) : Option Vm :=
  match m.pc c with
  | .absent | .exited => none
  | .start => some { m.goto c .inSystem with system := m.system.arrive (m.ncores + 1) }
  | .inSystem => if 0 < m.system.gen then some (m.goto c .boot) else none
  | .boot => some { m.goto c .sync with booted := m.booted || c = 0 }
  | .sync => some { m.goto c .inCore with core := m.core.arrive m.ncores }
  | .inCore => if 0 < m.core.gen then some (m.goto c .scheduler) else none
  | .scheduler => some (m.goto c .stop)
  | .stop => some { m.goto c .inCoreAgain with core := m.core.arrive m.ncores }
  | .inCoreAgain => if 1 < m.core.gen then some (m.goto c .close) else none
  | .close => some { m.goto c .finish with picActive := m.picActive && !(c = 0) }
  | .finish => some { m.goto c .inSystemAgain with system := m.system.arrive (m.ncores + 1) }
  | .inSystemAgain => if 1 < m.system.gen then some (m.goto c .exited) else none

/-- The barriers are destroyed with nobody inside. -/
def Vm.destroy (m : Vm) : Vm :=
  { m with pic := .ended, faulted := m.faulted || !(m.system.count = 0 ∧ m.core.count = 0) }

def Vm.runPic (m : Vm) : Option Vm :=
  match m.pic with
  | .launching c =>
    if c < m.ncores then some { m.goto c .start with pic := .launching (c + 1) }
    else some { m with pic := .inSystem, system := m.system.arrive (m.ncores + 1) }
  | .inSystem => if 0 < m.system.gen then some { m with pic := .loop } else none
  | .loop => if m.picActive then none else some { m with pic := .finish }
  | .finish => some { m with pic := .inSystemAgain, system := m.system.arrive (m.ncores + 1) }
  | .inSystemAgain => if 1 < m.system.gen then some { m with pic := .joining 0 } else none
  | .joining c =>
    if c < m.ncores then if m.pc c = .exited then some { m with pic := .joining (c + 1) } else none
    else some m.destroy
  | .ended => none

def Vm.step (m : Vm) : VmEvent → Option Vm
  | .run c => if c < m.ncores then m.run c else none
  | .pic => m.runPic
  | .raise c => if m.pic = .loop ∧ c < m.ncores then some (m.signal c) else none
  | .ici d c =>
    if d < m.ncores ∧ m.pc d = .scheduler ∧ c < m.ncores then some (m.signal c) else none

def Vm.boot (ncores : Nat) : Vm where
  ncores := ncores
  pc _ := .absent
  pic := .launching 0
  system := .closed
  core := .closed
  picActive := true
  booted := false
  faulted := false

/-! ### Passing the barriers -/

def VmPc.inSystemBarrier : VmPc → Bool
  | .inSystem | .inSystemAgain => true
  | _ => false

def VmPc.inCoreBarrier : VmPc → Bool
  | .inCore | .inCoreAgain => true
  | _ => false

def VmPc.systemPasses : VmPc → Nat
  | .absent | .start | .inSystem => 0
  | .exited => 2
  | _ => 1

def VmPc.corePasses : VmPc → Nat
  | .scheduler | .stop | .inCoreAgain => 1
  | .close | .finish | .inSystemAgain | .exited => 2
  | _ => 0

def PicLife.inSystemBarrier : PicLife → Bool
  | .inSystem | .inSystemAgain => true
  | _ => false

def PicLife.systemPasses : PicLife → Nat
  | .launching _ | .inSystem => 0
  | .joining _ | .ended => 2
  | _ => 1

/-- The parties of the barrier of the system; the last one is the PIC daemon. -/
def Vm.systemInside (m : Vm) (i : Nat) : Bool :=
  if i = m.ncores then m.pic.inSystemBarrier else (m.pc i).inSystemBarrier

def Vm.systemPasses (m : Vm) (i : Nat) : Nat :=
  if i = m.ncores then m.pic.systemPasses else (m.pc i).systemPasses

def VmPc.beforeBoot : VmPc → Bool
  | .absent | .start | .inSystem | .boot => true
  | _ => false

/-- Core 0 has told the PIC daemon to stop. -/
def VmPc.closed : VmPc → Bool
  | .finish | .inSystemAgain | .exited => true
  | _ => false

def PicLife.pastLoop : PicLife → Bool
  | .launching _ | .inSystem | .loop => false
  | _ => true

structure Vm.Inv (m : Vm) : Prop where
  cores : 0 < m.ncores
  system : Rendezvous.Inv m.system (Finset.range (m.ncores + 1)) m.systemInside m.systemPasses
  core : Rendezvous.Inv m.core (Finset.range m.ncores) (fun c => (m.pc c).inCoreBarrier) fun c =>
    (m.pc c).corePasses
  absent : ∀ c < m.ncores, m.pc c = .absent ↔ ∃ d ≤ c, m.pic = .launching d
  booted : m.booted = true ∨ (m.pc 0).beforeBoot = true
  active : m.picActive = !(m.pc 0).closed
  stopping : m.pic.pastLoop = true → m.picActive = false
  joined : ∀ d, m.pic = .joining d → ∀ c < d, m.pc c = .exited
  ended : m.pic = .ended → ∀ c < m.ncores, m.pc c = .exited
  sound : m.faulted = false

section Steps

variable {m m' : Vm} {c d : Nat} {pc pc' : VmPc} {e : VmEvent}

theorem Vm.pc_goto (i : Nat) : (m.goto c pc').pc i = if i = c then pc' else m.pc i := by
  by_cases h : i = c
  · subst h
    simp [goto]
  · simp [goto, h]

/-- What the barrier of the system sees of a step of core `c`. -/
theorem Vm.system_goto (hc : c < m.ncores) (i : Nat) :
    (m.goto c pc').systemInside i = (if i = c then pc'.inSystemBarrier else m.systemInside i) ∧
      (m.goto c pc').systemPasses i = if i = c then pc'.systemPasses else m.systemPasses i := by
  have hn : (m.goto c pc').ncores = m.ncores := rfl
  have hpic : (m.goto c pc').pic = m.pic := rfl
  simp only [systemInside, systemPasses, pc_goto, hn, hpic]
  by_cases hi : i = c
  · subst hi
    simp [Nat.ne_of_lt hc]
  · simp [hi]

theorem Vm.systemInside_core (hc : c < m.ncores) : m.systemInside c = (m.pc c).inSystemBarrier := by
  simp [systemInside, Nat.ne_of_lt hc]

theorem Vm.systemPasses_core (hc : c < m.ncores) : m.systemPasses c = (m.pc c).systemPasses := by
  simp [systemPasses, Nat.ne_of_lt hc]

theorem Vm.mem_parties (hc : c < m.ncores) : c ∈ Finset.range (m.ncores + 1) :=
  Finset.mem_range.mpr (by omega)

theorem Vm.Inv.system_quiet (h : m.Inv) (hc : c < m.ncores)
    (hin : pc'.inSystemBarrier = (m.pc c).inSystemBarrier)
    (hp : pc'.systemPasses = (m.pc c).systemPasses) :
    Rendezvous.Inv m.system (Finset.range (m.ncores + 1)) (m.goto c pc').systemInside
      (m.goto c pc').systemPasses := by
  refine h.system.congr (fun i _ => ?_) fun i _ => ?_
  · rw [(system_goto hc i).1]
    split
    · rename_i hi
      rw [hi, systemInside_core hc, hin]
    · rfl
  · rw [(system_goto hc i).2]
    split
    · rename_i hi
      rw [hi, systemPasses_core hc, hp]
    · rfl

theorem Vm.Inv.system_arrive (h : m.Inv) (hc : c < m.ncores)
    (hout : (m.pc c).inSystemBarrier = false)
    (hin : pc'.inSystemBarrier = true) (hp : pc'.systemPasses = (m.pc c).systemPasses) :
    Rendezvous.Inv (m.system.arrive (m.ncores + 1)) (Finset.range (m.ncores + 1))
      (m.goto c pc').systemInside
      (m.goto c pc').systemPasses := by
  have hcard : (Finset.range (m.ncores + 1)).card = m.ncores + 1 := Finset.card_range _
  have harrive : ∀ inside passes,
      (∀ j ∈ Finset.range (m.ncores + 1), inside j =
        if j = c then true else m.systemInside j) →
      (∀ j ∈ Finset.range (m.ncores + 1), passes j = m.systemPasses j) →
      Rendezvous.Inv (m.system.arrive (m.ncores + 1)) (Finset.range (m.ncores + 1))
        inside passes := by
    intro inside passes hi hpass
    have := h.system.arrive (mem_parties hc) (by rw [systemInside_core hc, hout]) hi hpass
    rwa [hcard] at this
  refine harrive _ _ (fun i _ => ?_) fun i _ => ?_
  · rw [(system_goto hc i).1, hin]
  · rw [(system_goto hc i).2]
    split
    · rename_i hi
      rw [hi, systemPasses_core hc, hp]
    · rfl

theorem Vm.Inv.system_leave (h : m.Inv) (hc : c < m.ncores) (hin : (m.pc c).inSystemBarrier = true)
    (hopen : (m.pc c).systemPasses < m.system.gen) (hout : pc'.inSystemBarrier = false)
    (hp : pc'.systemPasses = (m.pc c).systemPasses + 1) :
    Rendezvous.Inv m.system (Finset.range (m.ncores + 1)) (m.goto c pc').systemInside
      (m.goto c pc').systemPasses := by
  refine h.system.leave (i := c) (mem_parties hc) (by rw [systemInside_core hc, hin])
    (by rw [systemPasses_core hc]; exact hopen) (fun i _ => ?_) fun i _ => ?_
  · rw [(system_goto hc i).1, hout]
  · rw [(system_goto hc i).2]
    split
    · rename_i hi
      rw [hi, systemPasses_core hc, hp]
    · rfl

theorem Vm.Inv.core_quiet (h : m.Inv) (hin : pc'.inCoreBarrier = (m.pc c).inCoreBarrier)
    (hp : pc'.corePasses = (m.pc c).corePasses) :
    Rendezvous.Inv m.core (Finset.range m.ncores) (fun i => ((m.goto c pc').pc i).inCoreBarrier)
      fun i => ((m.goto c pc').pc i).corePasses := by
  refine h.core.congr (fun i _ => ?_) fun i _ => ?_
  · rw [pc_goto]
    split
    · rename_i hi
      rw [hi, hin]
    · rfl
  · rw [pc_goto]
    split
    · rename_i hi
      rw [hi, hp]
    · rfl

theorem Vm.Inv.core_arrive (h : m.Inv) (hc : c < m.ncores) (hout : (m.pc c).inCoreBarrier = false)
    (hin : pc'.inCoreBarrier = true) (hp : pc'.corePasses = (m.pc c).corePasses) :
    Rendezvous.Inv (m.core.arrive m.ncores) (Finset.range m.ncores)
      (fun i => ((m.goto c pc').pc i).inCoreBarrier)
      fun i => ((m.goto c pc').pc i).corePasses := by
  have hcard : (Finset.range m.ncores).card = m.ncores := Finset.card_range _
  have harrive : ∀ inside passes, (∀ j ∈ Finset.range m.ncores, inside j = if j = c then true else
      (m.pc j).inCoreBarrier) → (∀ j ∈ Finset.range m.ncores, passes j = (m.pc j).corePasses) →
      Rendezvous.Inv (m.core.arrive m.ncores) (Finset.range m.ncores) inside passes := by
    intro inside passes hi hpass
    have := h.core.arrive (Finset.mem_range.mpr hc) hout hi hpass
    rwa [hcard] at this
  refine harrive _ _ (fun i _ => ?_) fun i _ => ?_
  · rw [pc_goto]
    split
    · exact hin
    · rfl
  · rw [pc_goto]
    split
    · rename_i hi
      rw [hi, hp]
    · rfl

theorem Vm.Inv.core_leave (h : m.Inv) (hc : c < m.ncores) (hin : (m.pc c).inCoreBarrier = true)
    (hopen : (m.pc c).corePasses < m.core.gen) (hout : pc'.inCoreBarrier = false)
    (hp : pc'.corePasses = (m.pc c).corePasses + 1) :
    Rendezvous.Inv m.core (Finset.range m.ncores) (fun i => ((m.goto c pc').pc i).inCoreBarrier)
      fun i => ((m.goto c pc').pc i).corePasses := by
  refine h.core.leave (i := c) (Finset.mem_range.mpr hc) hin hopen (fun i _ => ?_) fun i _ => ?_
  · rw [pc_goto]
    split
    · exact hout
    · rfl
  · rw [pc_goto]
    split
    · rename_i hi
      rw [hi, hp]
    · rfl

/-- A step of core `c`, once both barriers have been looked after. -/
theorem Vm.Inv.moved (h : m.Inv) (hc : c < m.ncores) (hpre : m.pc c ≠ .absent ∧ m.pc c ≠ .exited)
    (hpost : pc' ≠ .absent) {system core : Rendezvous.Barrier} {picActive booted : Bool}
    (hs : Rendezvous.Inv system (Finset.range (m.ncores + 1)) (m.goto c pc').systemInside
      (m.goto c pc').systemPasses)
    (hk : Rendezvous.Inv core (Finset.range m.ncores) (fun i => ((m.goto c pc').pc i).inCoreBarrier)
      fun i => ((m.goto c pc').pc i).corePasses)
    (hbooted : booted = true ∨ ((m.goto c pc').pc 0).beforeBoot = true)
    (hactive : picActive = !((m.goto c pc').pc 0).closed)
    (hkeep : m.picActive = false → picActive = false) :
    Vm.Inv { m.goto c pc' with
        system := system, core := core, picActive := picActive, booted := booted } where
  cores := h.cores
  system := hs
  core := hk
  absent i hi := by
    show (m.goto c pc').pc i = .absent ↔ _
    rw [pc_goto]
    split
    · rename_i hic
      subst hic
      exact ⟨fun ha => absurd ha hpost, fun ha => absurd ((h.absent i hi).mpr ha) hpre.1⟩
    · exact h.absent i hi
  booted := hbooted
  active := hactive
  stopping hp := hkeep (h.stopping hp)
  joined d hd i hi := by
    show (m.goto c pc').pc i = .exited
    rw [pc_goto]
    split
    · rename_i hic
      subst hic
      exact absurd (h.joined d hd i hi) hpre.2
    · exact h.joined d hd i hi
  ended ho := absurd (h.ended ho c hc) hpre.2
  sound := h.sound

theorem Vm.Inv.same_boot (h : m.Inv) (hb : pc'.beforeBoot = (m.pc c).beforeBoot) :
    m.booted = true ∨ ((m.goto c pc').pc 0).beforeBoot = true := by
  refine h.booted.imp id fun hbefore => ?_
  rw [pc_goto]
  split
  · rename_i hc
    rw [hb, ← hc, hbefore]
  · exact hbefore

theorem Vm.Inv.same_active (h : m.Inv) (hb : pc'.closed = (m.pc c).closed) :
    m.picActive = !((m.goto c pc').pc 0).closed := by
  rw [h.active, pc_goto]
  split
  · rename_i hc
    rw [hb, ← hc]
  · rfl

theorem Vm.Inv.run (h : m.Inv) (hc : c < m.ncores) (hs : m.run c = some m') : m'.Inv := by
  have hquiet : ∀ {pc'}, m.pc c ≠ .absent ∧ m.pc c ≠ .exited → pc' ≠ .absent →
      pc'.beforeBoot = (m.pc c).beforeBoot → pc'.closed = (m.pc c).closed →
        ∀ {system core : Rendezvous.Barrier},
      Rendezvous.Inv system (Finset.range (m.ncores + 1)) (m.goto c pc').systemInside
        (m.goto c pc').systemPasses →
      Rendezvous.Inv core (Finset.range m.ncores) (fun i => ((m.goto c pc').pc i).inCoreBarrier)
        (fun i => ((m.goto c pc').pc i).corePasses) →
      Vm.Inv { m.goto c pc' with system := system, core := core } :=
    fun hpre hpost hb ha _ _ hsys hcore => h.moved hc hpre hpost hsys hcore
      (h.same_boot hb) (h.same_active ha) id
  unfold Vm.run at hs
  cases hpc : m.pc c with
  | absent | exited => simp [hpc] at hs
  | start =>
    simp only [hpc, Option.some.injEq] at hs
    subst hs
    exact hquiet (by simp [hpc]) (by simp) (by simp [hpc, VmPc.beforeBoot])
      (by simp [hpc, VmPc.closed])
      (h.system_arrive hc (by simp [hpc, VmPc.inSystemBarrier]) rfl
        (by simp [hpc, VmPc.systemPasses]))
      (h.core_quiet (by simp [hpc, VmPc.inCoreBarrier]) (by simp [hpc, VmPc.corePasses]))
  | inSystem =>
    simp only [hpc, Option.ite_none_right_eq_some, Option.some.injEq] at hs
    obtain ⟨hopen, rfl⟩ := hs
    exact hquiet (by simp [hpc]) (by simp) (by simp [hpc, VmPc.beforeBoot])
      (by simp [hpc, VmPc.closed])
      (h.system_leave hc (by simp [hpc, VmPc.inSystemBarrier])
        (by simpa [hpc, VmPc.systemPasses] using hopen) rfl
        (by simp [hpc, VmPc.systemPasses]))
      (h.core_quiet (by simp [hpc, VmPc.inCoreBarrier]) (by simp [hpc, VmPc.corePasses]))
  | boot =>
    simp only [hpc, Option.some.injEq] at hs
    subst hs
    refine h.moved hc (by simp [hpc]) (by simp)
      (h.system_quiet hc (by simp [hpc, VmPc.inSystemBarrier]) (by simp [hpc, VmPc.systemPasses]))
      (h.core_quiet (by simp [hpc, VmPc.inCoreBarrier]) (by simp [hpc, VmPc.corePasses])) ?_
      (h.same_active (by simp [hpc, VmPc.closed])) id
    by_cases hzero : c = 0
    · exact .inl (by simp [hzero])
    · rw [Vm.pc_goto, if_neg (Ne.symm hzero)]
      exact h.booted.imp (fun hb => by simp [hb]) id
  | sync =>
    simp only [hpc, Option.some.injEq] at hs
    subst hs
    exact hquiet (by simp [hpc]) (by simp) (by simp [hpc, VmPc.beforeBoot])
      (by simp [hpc, VmPc.closed])
      (h.system_quiet hc (by simp [hpc, VmPc.inSystemBarrier]) (by simp [hpc, VmPc.systemPasses]))
      (h.core_arrive hc (by simp [hpc, VmPc.inCoreBarrier]) rfl (by simp [hpc, VmPc.corePasses]))
  | inCore =>
    simp only [hpc, Option.ite_none_right_eq_some, Option.some.injEq] at hs
    obtain ⟨hopen, rfl⟩ := hs
    exact hquiet (by simp [hpc]) (by simp) (by simp [hpc, VmPc.beforeBoot])
      (by simp [hpc, VmPc.closed])
      (h.system_quiet hc (by simp [hpc, VmPc.inSystemBarrier]) (by simp [hpc, VmPc.systemPasses]))
      (h.core_leave hc (by simp [hpc, VmPc.inCoreBarrier])
        (by simpa [hpc, VmPc.corePasses] using hopen) rfl
        (by simp [hpc, VmPc.corePasses]))
  | scheduler =>
    simp only [hpc, Option.some.injEq] at hs
    subst hs
    exact hquiet (by simp [hpc]) (by simp) (by simp [hpc, VmPc.beforeBoot])
      (by simp [hpc, VmPc.closed])
      (h.system_quiet hc (by simp [hpc, VmPc.inSystemBarrier]) (by simp [hpc, VmPc.systemPasses]))
      (h.core_quiet (by simp [hpc, VmPc.inCoreBarrier]) (by simp [hpc, VmPc.corePasses]))
  | stop =>
    simp only [hpc, Option.some.injEq] at hs
    subst hs
    exact hquiet (by simp [hpc]) (by simp) (by simp [hpc, VmPc.beforeBoot])
      (by simp [hpc, VmPc.closed])
      (h.system_quiet hc (by simp [hpc, VmPc.inSystemBarrier]) (by simp [hpc, VmPc.systemPasses]))
      (h.core_arrive hc (by simp [hpc, VmPc.inCoreBarrier]) rfl (by simp [hpc, VmPc.corePasses]))
  | inCoreAgain =>
    simp only [hpc, Option.ite_none_right_eq_some, Option.some.injEq] at hs
    obtain ⟨hopen, rfl⟩ := hs
    exact hquiet (by simp [hpc]) (by simp) (by simp [hpc, VmPc.beforeBoot])
      (by simp [hpc, VmPc.closed])
      (h.system_quiet hc (by simp [hpc, VmPc.inSystemBarrier]) (by simp [hpc, VmPc.systemPasses]))
      (h.core_leave hc (by simp [hpc, VmPc.inCoreBarrier])
        (by simpa [hpc, VmPc.corePasses] using hopen) rfl
        (by simp [hpc, VmPc.corePasses]))
  | close =>
    simp only [hpc, Option.some.injEq] at hs
    subst hs
    refine h.moved hc (by simp [hpc]) (by simp)
      (h.system_quiet hc (by simp [hpc, VmPc.inSystemBarrier]) (by simp [hpc, VmPc.systemPasses]))
      (h.core_quiet (by simp [hpc, VmPc.inCoreBarrier]) (by simp [hpc, VmPc.corePasses]))
      (h.same_boot (by simp [hpc, VmPc.beforeBoot])) ?_ fun ha => by simp [ha]
    rw [Vm.pc_goto]
    by_cases hzero : c = 0
    · simp [hzero, VmPc.closed]
    · simp [hzero, Ne.symm hzero, h.active]
  | finish =>
    simp only [hpc, Option.some.injEq] at hs
    subst hs
    exact hquiet (by simp [hpc]) (by simp) (by simp [hpc, VmPc.beforeBoot])
      (by simp [hpc, VmPc.closed])
      (h.system_arrive hc (by simp [hpc, VmPc.inSystemBarrier]) rfl
        (by simp [hpc, VmPc.systemPasses]))
      (h.core_quiet (by simp [hpc, VmPc.inCoreBarrier]) (by simp [hpc, VmPc.corePasses]))
  | inSystemAgain =>
    simp only [hpc, Option.ite_none_right_eq_some, Option.some.injEq] at hs
    obtain ⟨hopen, rfl⟩ := hs
    exact hquiet (by simp [hpc]) (by simp) (by simp [hpc, VmPc.beforeBoot])
      (by simp [hpc, VmPc.closed])
      (h.system_leave hc (by simp [hpc, VmPc.inSystemBarrier])
        (by simpa [hpc, VmPc.systemPasses] using hopen) rfl
        (by simp [hpc, VmPc.systemPasses]))
      (h.core_quiet (by simp [hpc, VmPc.inCoreBarrier]) (by simp [hpc, VmPc.corePasses]))

/-- What the barrier of the system sees of a step of the PIC daemon. -/
theorem Vm.system_pic (pic : PicLife) (i : Nat) :
    Vm.systemInside { m with pic := pic } i =
    (if i = m.ncores then pic.inSystemBarrier else m.systemInside i) ∧
      Vm.systemPasses { m with pic := pic } i = if i = m.ncores then pic.systemPasses
        else m.systemPasses i := by
  simp only [systemInside, systemPasses]
  by_cases hi : i = m.ncores <;> simp [hi]

/-- A step of the PIC daemon that leaves the cores alone. -/
theorem Vm.Inv.moved_pic (h : m.Inv) {pic : PicLife} {system : Rendezvous.Barrier} {faulted : Bool}
    (hs : Rendezvous.Inv system (Finset.range (m.ncores + 1))
      (Vm.systemInside { m with pic := pic })
      (Vm.systemPasses { m with pic := pic }))
    (habsent : ∀ c < m.ncores, (∃ d ≤ c, m.pic = .launching d) ↔ ∃ d ≤ c, pic = .launching d)
    (hstop : pic.pastLoop = true → m.picActive = false)
    (hjoined : ∀ d, pic = .joining d → ∀ c < d, m.pc c = .exited)
    (hover : pic = .ended → ∀ c < m.ncores, m.pc c = .exited) (hsound : faulted = false) :
    Vm.Inv { m with pic := pic, system := system, faulted := faulted } where
  cores := h.cores
  system := hs
  core := h.core
  absent c hc := (h.absent c hc).trans (habsent c hc)
  booted := h.booted
  active := h.active
  stopping := hstop
  joined := hjoined
  ended := hover
  sound := hsound

theorem Vm.Inv.pic_quiet (h : m.Inv) {pic : PicLife}
    (hin : pic.inSystemBarrier = m.pic.inSystemBarrier)
    (hp : pic.systemPasses = m.pic.systemPasses) :
    Rendezvous.Inv m.system (Finset.range (m.ncores + 1)) (Vm.systemInside { m with pic := pic })
      (Vm.systemPasses { m with pic := pic }) := by
  refine h.system.congr (fun i _ => ?_) fun i _ => ?_
  · rw [(system_pic pic i).1]
    split
    · rename_i hi
      rw [hi, hin, systemInside, if_pos rfl]
    · rfl
  · rw [(system_pic pic i).2]
    split
    · rename_i hi
      rw [hi, hp, systemPasses, if_pos rfl]
    · rfl

theorem Vm.Inv.pic_arrive (h : m.Inv) {pic : PicLife} (hout : m.pic.inSystemBarrier = false)
    (hin : pic.inSystemBarrier = true) (hp : pic.systemPasses = m.pic.systemPasses) :
    Rendezvous.Inv (m.system.arrive (m.ncores + 1)) (Finset.range (m.ncores + 1))
      (Vm.systemInside { m with pic := pic })
      (Vm.systemPasses { m with pic := pic }) := by
  have hcard : (Finset.range (m.ncores + 1)).card = m.ncores + 1 := Finset.card_range _
  have harrive : ∀ inside passes,
      (∀ j ∈ Finset.range (m.ncores + 1), inside j =
        if j = m.ncores then true else m.systemInside j) →
      (∀ j ∈ Finset.range (m.ncores + 1), passes j = m.systemPasses j) →
      Rendezvous.Inv (m.system.arrive (m.ncores + 1)) (Finset.range (m.ncores + 1))
        inside passes := by
    intro inside passes hi hpass
    have := h.system.arrive (Finset.mem_range.mpr (Nat.lt_succ_self m.ncores))
      (by simp [systemInside, hout]) hi hpass
    rwa [hcard] at this
  refine harrive _ _ (fun i _ => ?_) fun i _ => ?_
  · rw [(system_pic pic i).1, hin]
  · rw [(system_pic pic i).2]
    split
    · rename_i hi
      rw [hi, hp, systemPasses, if_pos rfl]
    · rfl

theorem Vm.Inv.pic_leave (h : m.Inv) {pic : PicLife} (hin : m.pic.inSystemBarrier = true)
    (hopen : m.pic.systemPasses < m.system.gen) (hout : pic.inSystemBarrier = false)
    (hp : pic.systemPasses = m.pic.systemPasses + 1) :
    Rendezvous.Inv m.system (Finset.range (m.ncores + 1)) (Vm.systemInside { m with pic := pic })
      (Vm.systemPasses { m with pic := pic }) := by
  refine h.system.leave (i := m.ncores) (Finset.mem_range.mpr (Nat.lt_succ_self _))
    (by simp [systemInside, hin])
    (by simpa [systemPasses] using hopen) (fun i _ => ?_) fun i _ => ?_
  · rw [(system_pic pic i).1, hout]
  · rw [(system_pic pic i).2]
    split
    · rename_i hi
      rw [hi, hp, systemPasses, if_pos rfl]
    · rfl

theorem Vm.Inv.runPic (h : m.Inv) (hs : m.runPic = some m') : m'.Inv := by
  unfold Vm.runPic at hs
  cases hpic : m.pic with
  | launching d =>
    simp only [hpic] at hs
    have hnone : ∀ {pic : PicLife}, (∀ d, pic ≠ .launching d) → m.ncores ≤ d → ∀ c < m.ncores,
        (∃ d ≤ c, m.pic = .launching d) ↔ ∃ d ≤ c, pic = .launching d := by
      intro pic hne hle c hc
      constructor
      · rintro ⟨d', hd', he⟩
        obtain rfl : d = d' := by simpa [hpic] using he
        omega
      · rintro ⟨d', -, he⟩
        exact absurd he (hne d')
    split at hs
    · rename_i hlt
      obtain rfl := Option.some.inj hs
      have hd : m.pc d = .absent := (h.absent d hlt).mpr ⟨d, Nat.le_refl d, hpic⟩
      have hpcs : ∀ i, (m.goto d .start).pc i = if i = d then .start else m.pc i := Vm.pc_goto
      refine ⟨h.cores, ?_, ?_, fun c hc => ?_, ?_, ?_, fun hp => by simp [PicLife.pastLoop] at hp,
        fun _ hj => by simp at hj, fun ho => by simp at ho, h.sound⟩
      · refine h.system.congr (fun i _ => ?_) fun i _ => ?_
        · show (if i = m.ncores then _ else ((m.goto d .start).pc i).inSystemBarrier) = _
          rw [Vm.systemInside, hpic, hpcs]
          by_cases hi : i = d
          · simp [hi, hd, VmPc.inSystemBarrier, PicLife.inSystemBarrier]
          · simp [hi, PicLife.inSystemBarrier]
        · show (if i = m.ncores then _ else ((m.goto d .start).pc i).systemPasses) = _
          rw [Vm.systemPasses, hpic, hpcs]
          by_cases hi : i = d
          · simp [hi, hd, VmPc.systemPasses, PicLife.systemPasses]
          · simp [hi, PicLife.systemPasses]
      · exact h.core_quiet (by simp [hd, VmPc.inCoreBarrier]) (by simp [hd, VmPc.corePasses])
      · show (m.goto d .start).pc c = .absent ↔ ∃ d' ≤ c, PicLife.launching (d + 1) = .launching d'
        rw [hpcs]
        split
        · rename_i hcd
          subst hcd
          simp
        · rename_i hcd
          rw [h.absent c hc, hpic]
          simp only [PicLife.launching.injEq, exists_eq_right']
          omega
      · exact h.same_boot (by simp [hd, VmPc.beforeBoot])
      · exact h.same_active (by simp [hd, VmPc.closed])
    · rename_i hge
      obtain rfl := Option.some.inj hs
      exact h.moved_pic (h.pic_arrive (by simp [hpic, PicLife.inSystemBarrier]) rfl
        (by simp [hpic, PicLife.systemPasses])) (hnone (by simp) (Nat.le_of_not_lt hge))
        (by simp [PicLife.pastLoop]) (by simp) (by simp) h.sound
  | inSystem =>
    simp only [hpic, Option.ite_none_right_eq_some, Option.some.injEq] at hs
    obtain ⟨hopen, rfl⟩ := hs
    exact h.moved_pic (h.pic_leave (by simp [hpic, PicLife.inSystemBarrier])
      (by simpa [hpic, PicLife.systemPasses] using hopen) rfl
      (by simp [hpic, PicLife.systemPasses]))
      (by simp [hpic]) (by simp [PicLife.pastLoop]) (by simp) (by simp) h.sound
  | loop =>
    simp only [hpic] at hs
    split at hs
    · simp at hs
    · rename_i hactive
      obtain rfl := Option.some.inj hs
      exact h.moved_pic (h.pic_quiet (by simp [hpic, PicLife.inSystemBarrier])
        (by simp [hpic, PicLife.systemPasses]))
        (by simp [hpic]) (fun _ => by simpa using hactive) (by simp) (by simp) h.sound
  | finish =>
    simp only [hpic, Option.some.injEq] at hs
    subst hs
    exact h.moved_pic (h.pic_arrive (by simp [hpic, PicLife.inSystemBarrier]) rfl
      (by simp [hpic, PicLife.systemPasses]))
      (by simp [hpic]) (fun _ => h.stopping (by simp [hpic, PicLife.pastLoop]))
      (by simp) (by simp) h.sound
  | inSystemAgain =>
    simp only [hpic, Option.ite_none_right_eq_some, Option.some.injEq] at hs
    obtain ⟨hopen, rfl⟩ := hs
    exact h.moved_pic (h.pic_leave (by simp [hpic, PicLife.inSystemBarrier])
      (by simpa [hpic, PicLife.systemPasses] using hopen) rfl
      (by simp [hpic, PicLife.systemPasses]))
      (by simp [hpic]) (fun _ => h.stopping (by simp [hpic, PicLife.pastLoop]))
      (fun d hd c hc => by
        obtain rfl : 0 = d := by simpa using hd
        exact absurd hc (Nat.not_lt_zero c)) (by simp) h.sound
  | joining d =>
    simp only [hpic] at hs
    split at hs
    · simp only [Option.ite_none_right_eq_some, Option.some.injEq] at hs
      obtain ⟨hexit, rfl⟩ := hs
      refine h.moved_pic (h.pic_quiet (by simp [hpic, PicLife.inSystemBarrier])
        (by simp [hpic, PicLife.systemPasses]))
        (by simp [hpic]) (fun _ => h.stopping (by simp [hpic, PicLife.pastLoop]))
        (fun d' hd' c hc => ?_) (by simp) h.sound
      obtain rfl : d + 1 = d' := by simpa using hd'
      rcases Nat.lt_or_eq_of_le (Nat.le_of_lt_succ hc) with hlt | rfl
      · exact h.joined d hpic c hlt
      · exact hexit
    · rename_i hge
      obtain rfl := Option.some.inj hs
      have hall : ∀ c < m.ncores, m.pc c = .exited := fun c hc => h.joined d hpic c (by omega)
      have hsystem : m.system.count = 0 := by
        rw [h.system.count, Finset.card_eq_zero, Finset.filter_eq_empty_iff]
        rintro i hi ⟨hin, -⟩
        by_cases hic : i = m.ncores
        · simp [Vm.systemInside, hic, hpic, PicLife.inSystemBarrier] at hin
        · have := hall i (by have := Finset.mem_range.mp hi; omega)
          simp [Vm.systemInside, hic, this, VmPc.inSystemBarrier] at hin
      have hcore : m.core.count = 0 := by
        rw [h.core.count, Finset.card_eq_zero, Finset.filter_eq_empty_iff]
        rintro i hi ⟨hin, -⟩
        simp [hall i (Finset.mem_range.mp hi), VmPc.inCoreBarrier] at hin
      exact h.moved_pic (h.pic_quiet (by simp [hpic, PicLife.inSystemBarrier])
        (by simp [hpic, PicLife.systemPasses]))
        (by simp [hpic]) (fun _ => h.stopping (by simp [hpic, PicLife.pastLoop]))
        (by simp) (fun _ => hall) (by simp [h.sound, hsystem, hcore])
  | ended => simp [hpic] at hs

/-- Between its two barriers of the system, a party finds every core thread alive. -/
theorem Vm.Inv.signal (h : m.Inv) (hc : c < m.ncores) {i : Nat}
    (hi : i ∈ Finset.range (m.ncores + 1))
    (hp : m.systemPasses i = 1) (hout : m.systemInside i = false) : (m.signal c).Inv := by
  have hafter := h.system.arrived (mem_parties hc) hi
  have hbefore := h.system.arrived hi (mem_parties hc)
  rw [systemPasses_core hc, systemInside_core hc, hp] at hafter
  rw [systemPasses_core hc, hp, hout] at hbefore
  have habsent : m.pc c ≠ .absent := by
    intro ha
    simp [ha, VmPc.systemPasses, VmPc.inSystemBarrier] at hafter
  have hexited : m.pc c ≠ .exited := by
    intro he
    simp [he, VmPc.systemPasses] at hbefore
  exact ⟨h.cores, h.system, h.core, h.absent, h.booted, h.active, h.stopping, h.joined, h.ended,
    by simp [Vm.signal, h.sound, habsent, hexited]⟩

theorem Vm.Inv.step (h : m.Inv) (hs : m.step e = some m') : m'.Inv := by
  cases e with
  | run c =>
    simp only [Vm.step, Option.ite_none_right_eq_some] at hs
    exact h.run hs.1 hs.2
  | pic => exact h.runPic hs
  | raise c =>
    simp only [Vm.step, Option.ite_none_right_eq_some, Option.some.injEq] at hs
    obtain ⟨⟨hpic, hc⟩, rfl⟩ := hs
    exact h.signal hc (Finset.mem_range.mpr (Nat.lt_succ_self m.ncores))
      (by simp [Vm.systemPasses, hpic, PicLife.systemPasses])
      (by simp [Vm.systemInside, hpic, PicLife.inSystemBarrier])
  | ici d c =>
    simp only [Vm.step, Option.ite_none_right_eq_some, Option.some.injEq] at hs
    obtain ⟨⟨hd, hpc, hc⟩, rfl⟩ := hs
    exact h.signal hc (Vm.mem_parties hd) (by rw [Vm.systemPasses_core hd, hpc]; rfl)
      (by rw [Vm.systemInside_core hd, hpc]; rfl)

theorem Vm.inv_boot {ncores : Nat} (hn : 0 < ncores) : (Vm.boot ncores).Inv where
  cores := hn
  system := .closed ⟨0, Finset.mem_range.mpr (Nat.succ_pos _)⟩
    (fun i _ => by
      show (if i = ncores then false else false) = false
      split <;> rfl)
    fun i _ => by
      show (if i = ncores then 0 else 0) = 0
      split <;> rfl
  core := .closed ⟨0, Finset.mem_range.mpr hn⟩ (fun _ _ => rfl) fun _ _ => rfl
  absent c _ := ⟨fun _ => ⟨0, Nat.zero_le c, rfl⟩, fun _ => rfl⟩
  booted := .inr rfl
  active := rfl
  stopping h := by simp [Vm.boot, PicLife.pastLoop] at h
  joined d h := by simp [Vm.boot] at h
  ended h := by simp [Vm.boot] at h
  sound := rfl

end Steps

structure Vm.Safe (m : Vm) : Prop where
  running : ∀ c < m.ncores, m.pc c = .scheduler → m.booted = true ∧ m.picActive = true ∧
    (m.pic = .inSystem ∨ m.pic = .loop) ∧ ∀ d < m.ncores,
    m.pc d ∈ [.inCore, .scheduler, .stop, .inCoreAgain]
  stopped : m.pic.pastLoop = true → ∀ c < m.ncores,
    m.pc c ∈ [.inCoreAgain, .close, .finish, .inSystemAgain, .exited]
  finished : m.pic = .ended → ∀ c < m.ncores, m.pc c = .exited
  sound : m.faulted = false

section Runs

variable {m m' : Vm} {c : Nat} {ncores : Nat}

theorem Vm.Inv.core_arrived (h : m.Inv) {d : Nat} (hc : c < m.ncores) (hd : d < m.ncores) :
    (m.pc d).corePasses ≤ (m.pc c).corePasses + if (m.pc c).inCoreBarrier = true then 1 else 0 :=
  h.core.arrived (Finset.mem_range.mpr hc) (Finset.mem_range.mpr hd)

theorem Vm.Inv.safe (h : m.Inv) : m.Safe where
  running c hc hpc := by
    have hpasses : (m.pc c).corePasses = 1 := by rw [hpc]; rfl
    have hin : ∀ d < m.ncores, m.pc d ∈ [.inCore, .scheduler, .stop, .inCoreAgain] := by
      intro d hd
      have hle := h.core_arrived hc hd
      have hge := h.core_arrived hd hc
      rw [hpc] at hle hge
      cases hpd : m.pc d <;> simp [hpd, VmPc.corePasses, VmPc.inCoreBarrier] at hle hge ⊢
    have hzero := hin 0 h.cores
    have hactive : m.picActive = true := by
      rw [h.active]
      cases hpd : m.pc 0 <;> simp [hpd, VmPc.closed] at hzero ⊢
    refine ⟨?_, hactive, ?_, hin⟩
    · refine h.booted.resolve_right fun hbefore => ?_
      cases hpd : m.pc 0 <;> simp [hpd, VmPc.beforeBoot] at hzero hbefore
    · have hpic : m.ncores ∈ Finset.range (m.ncores + 1) :=
        Finset.mem_range.mpr (Nat.lt_succ_self _)
      have hle := h.system.arrived (Vm.mem_parties hc) hpic
      have hge := h.system.arrived hpic (Vm.mem_parties hc)
      rw [Vm.systemPasses_core hc, Vm.systemInside_core hc, hpc] at hle
      rw [Vm.systemPasses_core hc, hpc] at hge
      have hstop := h.stopping
      rw [hactive] at hstop
      simp only [Vm.systemPasses, Vm.systemInside, if_true] at hle hge
      cases hlife : m.pic <;>
        simp [hlife, PicLife.systemPasses, PicLife.inSystemBarrier, VmPc.systemPasses,
          VmPc.inSystemBarrier, PicLife.pastLoop] at hle hge hstop ⊢
  stopped hp c hc := by
    have hzero : (m.pc 0).corePasses = 2 := by
      have hclosed := h.active
      rw [h.stopping hp] at hclosed
      cases hpd : m.pc 0 <;> simp [hpd, VmPc.closed, VmPc.corePasses] at hclosed ⊢
    have hle := h.core_arrived hc h.cores
    rw [hzero] at hle
    cases hpc : m.pc c <;> simp [hpc, VmPc.corePasses, VmPc.inCoreBarrier] at hle ⊢
  finished := h.ended
  sound := h.sound

def VmPc.left : VmPc → Nat
  | .absent => 12
  | .start => 11
  | .inSystem => 10
  | .boot => 9
  | .sync => 8
  | .inCore => 7
  | .scheduler => 6
  | .stop => 5
  | .inCoreAgain => 4
  | .close => 3
  | .finish => 2
  | .inSystemAgain => 1
  | .exited => 0

def PicLife.left (ncores : Nat) : PicLife → Nat
  | .launching c => (ncores - c) + ncores + 6
  | .inSystem => ncores + 5
  | .loop => ncores + 4
  | .finish => ncores + 3
  | .inSystemAgain => ncores + 2
  | .joining c => (ncores - c) + 1
  | .ended => 0

def Vm.left (m : Vm) : Nat := ∑ c ∈ Finset.range m.ncores, (m.pc c).left + m.pic.left m.ncores

theorem Vm.left_run (hc : c < m.ncores) (hs : m.run c = some m') :
    m'.left < m.left ∧ m'.ncores = m.ncores := by
  obtain ⟨pc', hpcs, hpic, hn, hlt⟩ : ∃ pc', m'.pc = Function.update m.pc c pc' ∧ m'.pic = m.pic ∧
      m'.ncores = m.ncores ∧ pc'.left < (m.pc c).left := by
    unfold Vm.run at hs
    cases hpc : m.pc c with
    | absent | exited => simp [hpc] at hs
    | inSystem | inCore | inCoreAgain | inSystemAgain =>
      simp only [hpc, Option.ite_none_right_eq_some, Option.some.injEq] at hs
      obtain ⟨-, rfl⟩ := hs
      exact ⟨_, rfl, rfl, rfl, by decide⟩
    | _ =>
      simp only [hpc, Option.some.injEq] at hs
      subst hs
      exact ⟨_, rfl, rfl, rfl, by decide⟩
  refine ⟨?_, hn⟩
  unfold Vm.left
  rw [hpcs, hpic, hn]
  apply Nat.add_lt_add_right
  apply Finset.sum_lt_sum
  · intro i _
    by_cases hi : i = c
    · subst hi
      simpa using Nat.le_of_lt hlt
    · simp [hi]
  · exact ⟨c, Finset.mem_range.mpr hc, by simpa using hlt⟩

theorem Vm.left_pic (h : m.Inv) (hs : m.runPic = some m') : m'.left < m.left ∧
    m'.ncores = m.ncores := by
  unfold Vm.runPic at hs
  cases hpic : m.pic with
  | launching d =>
    simp only [hpic] at hs
    split at hs
    · rename_i hlt
      obtain rfl := Option.some.inj hs
      refine ⟨Nat.add_lt_add_of_le_of_lt (Finset.sum_le_sum fun i _ => ?_) ?_, rfl⟩
      · show ((m.goto d .start).pc i).left ≤ (m.pc i).left
        rw [Vm.pc_goto]
        split
        · rename_i hi
          rw [hi, (h.absent d hlt).mpr ⟨d, Nat.le_refl d, hpic⟩]
          decide
        · exact Nat.le_refl _
      · show PicLife.left m.ncores (.launching (d + 1)) < m.pic.left m.ncores
        rw [hpic]
        simp only [PicLife.left]
        omega
    · obtain rfl := Option.some.inj hs
      refine ⟨Nat.add_lt_add_left ?_ _, rfl⟩
      rw [hpic]
      simp only [PicLife.left]
      omega
  | joining d =>
    simp only [hpic] at hs
    split at hs
    · rename_i hlt
      simp only [Option.ite_none_right_eq_some, Option.some.injEq] at hs
      obtain ⟨-, rfl⟩ := hs
      refine ⟨Nat.add_lt_add_left ?_ _, rfl⟩
      rw [hpic]
      simp only [PicLife.left]
      omega
    · obtain rfl := Option.some.inj hs
      refine ⟨Nat.add_lt_add_left ?_ _, rfl⟩
      rw [hpic]
      simp only [Vm.destroy, PicLife.left]
      omega
  | ended => simp [hpic] at hs
  | finish =>
    simp only [hpic, Option.some.injEq] at hs
    subst hs
    refine ⟨Nat.add_lt_add_left ?_ _, rfl⟩
    rw [hpic]
    simp only [PicLife.left]
    omega
  | inSystem | inSystemAgain =>
    simp only [hpic, Option.ite_none_right_eq_some, Option.some.injEq] at hs
    obtain ⟨-, rfl⟩ := hs
    refine ⟨Nat.add_lt_add_left ?_ _, rfl⟩
    rw [hpic]
    simp only [PicLife.left]
    omega
  | loop =>
    simp only [hpic] at hs
    split at hs
    · simp at hs
    · obtain rfl := Option.some.inj hs
      refine ⟨Nat.add_lt_add_left ?_ _, rfl⟩
      rw [hpic]
      simp only [PicLife.left]
      omega

/-- A core that cannot go on waits at a barrier that is closed, or its thread is not there. -/
theorem Vm.run_none (hs : m.run c = none) :
    m.pc c = .absent ∨ m.pc c = .exited ∨
    ((m.pc c).inSystemBarrier = true ∧ m.system.gen ≤ (m.pc c).systemPasses) ∨
      ((m.pc c).inCoreBarrier = true ∧ m.core.gen ≤ (m.pc c).corePasses) := by
  unfold run at hs
  cases hpc : m.pc c <;>
    simp [hpc, VmPc.inSystemBarrier, VmPc.inCoreBarrier, VmPc.systemPasses,
      VmPc.corePasses] at hs ⊢ <;> exact hs

theorem Vm.runPic_none (hs : m.runPic = none) :
    m.pic = .ended ∨ (m.pic.inSystemBarrier = true ∧ m.system.gen ≤ m.pic.systemPasses) ∨
      (m.pic = .loop ∧ m.picActive = true) ∨ ∃ d < m.ncores, m.pic = .joining d ∧
      m.pc d ≠ .exited := by
  unfold runPic at hs
  cases hpic : m.pic with
  | joining d =>
    simp only [hpic] at hs
    split at hs
    · rename_i hlt
      exact .inr (.inr (.inr ⟨d, hlt, rfl, by simpa using hs⟩))
    · simp at hs
  | launching d =>
    simp only [hpic] at hs
    split at hs <;> simp at hs
  | _ => simp [hpic, PicLife.inSystemBarrier, PicLife.systemPasses] at hs ⊢ <;> exact hs

/-- Until `vm_run` returns, some thread has a step to take. -/
theorem Vm.Inv.live (h : m.Inv) (hpic : m.pic ≠ .ended) : (∃ c < m.ncores, m.run c ≠ none) ∨
    m.runPic ≠ none := by
  by_contra hno
  rw [not_or, not_exists, not_not] at hno
  obtain ⟨hcores, hlast⟩ := hno
  have hstuck : ∀ c < m.ncores, m.run c = none := fun c hc => by
    by_contra hne
    exact hcores c ⟨hc, hne⟩
  have hparty : ∀ c < m.ncores, (m.pc c).systemPasses ≤ m.system.gen := by
    intro c hc
    have hmem := Vm.mem_parties hc
    rw [← Vm.systemPasses_core hc]
    cases hin : m.systemInside c with
    | false => exact Nat.le_of_eq (h.system.out c hmem hin)
    | true => exact (h.system.waits c hmem hin).1
  -- somebody is outside the barrier of the cores
  obtain ⟨c, hc, hout⟩ : ∃ c < m.ncores, (m.pc c).inCoreBarrier = false := by
    rcases h.core.live with ⟨c, hc, hout⟩ | ⟨c, hc, hin, hlt⟩
    · exact ⟨c, Finset.mem_range.mp hc, hout⟩
    · have := hstuck c (Finset.mem_range.mp hc)
      rcases Vm.run_none this with ha | he | ⟨hin', -⟩ | ⟨-, hle⟩
      · simp [ha, VmPc.inCoreBarrier] at hin
      · simp [he, VmPc.inCoreBarrier] at hin
      · cases hpc : m.pc c <;> simp [hpc, VmPc.inCoreBarrier, VmPc.inSystemBarrier] at hin hin'
      · omega
  have hcore : (m.pc c).corePasses = m.core.gen := h.core.out c (Finset.mem_range.mpr hc) hout
  have hpresent : ∀ d < m.ncores, m.pc d ≠ .absent := by
    intro d hd ha
    obtain ⟨d', -, hl⟩ := (h.absent d hd).mp ha
    rcases Vm.runPic_none hlast with ho | ⟨hin, -⟩ | ⟨ho, -⟩ | ⟨_, -, ho, -⟩ <;>
      simp [hl, PicLife.inSystemBarrier] at *
  have hactive : (m.pc 0).closed = true → m.picActive = false :=
    fun hclosed => by rw [h.active, hclosed]; rfl
  rcases Vm.run_none (hstuck c hc) with ha | he | ⟨hin, hle⟩ | ⟨hin, -⟩
  · exact hpresent c hc ha
  · -- all cores have exited, and the daemon has only to join them
    have hsystem : 2 ≤ m.system.gen := by simpa [he, VmPc.systemPasses] using hparty c hc
    have hgen : m.core.gen = 2 := by rw [← hcore, he]; rfl
    have hall : ∀ d < m.ncores, m.pc d = .exited := by
      intro d hd
      rcases Vm.run_none (hstuck d hd) with ha | he | ⟨hin, hle⟩ | ⟨hin, hle⟩
      · exact absurd ha (hpresent d hd)
      · exact he
      · cases hpd : m.pc d <;> simp [hpd, VmPc.inSystemBarrier, VmPc.systemPasses] at hin hle <;>
          omega
      · cases hpd : m.pc d <;> simp [hpd, VmPc.inCoreBarrier, VmPc.corePasses] at hin hle <;> omega
    rcases Vm.runPic_none hlast with ho | ⟨hin, hle⟩ | ⟨-, ha⟩ | ⟨d, hd, -, hne⟩
    · exact hpic ho
    · cases hlife : m.pic <;>
        simp [hlife, PicLife.inSystemBarrier, PicLife.systemPasses] at hin hle <;> omega
    · rw [hactive (by rw [hall 0 h.cores]; rfl)] at ha
      simp at ha
    · exact hne (hall d hd)
  · have hmem : m.ncores ∈ Finset.range (m.ncores + 1) := Finset.mem_range.mpr (Nat.lt_succ_self _)
    have hgen : (m.pc c).systemPasses = m.system.gen := Nat.le_antisymm (hparty c hc) hle
    have hcases : m.pc c = .inSystem ∧ m.system.gen = 0 ∨ m.pc c = .inSystemAgain ∧
        m.system.gen = 1 := by
      cases hpc : m.pc c <;> simp [hpc, VmPc.inSystemBarrier, VmPc.systemPasses] at hin hgen ⊢ <;>
        omega
    rcases hcases with ⟨-, hzero⟩ | ⟨hpc, hone⟩
    · rcases h.system.live with ⟨i, hi, hi'⟩ | ⟨i, -, -, hlt⟩
      · have hpasses := h.system.out i hi hi'
        by_cases hic : i = m.ncores
        · subst hic
          simp only [Vm.systemInside, Vm.systemPasses, if_true] at hi' hpasses
          cases hlife : m.pic with
          | launching d =>
            rcases Vm.runPic_none hlast with ho | ⟨hin, -⟩ | ⟨ho, -⟩ | ⟨_, -, ho, -⟩ <;>
              simp [hlife, PicLife.inSystemBarrier] at *
          | _ => simp [hlife, PicLife.inSystemBarrier, PicLife.systemPasses, hzero] at hi' hpasses
        · have hic' : i < m.ncores := by
            have := Finset.mem_range.mp hi
            omega
          rw [Vm.systemInside_core hic'] at hi'
          rw [Vm.systemPasses_core hic'] at hpasses
          rcases Vm.run_none (hstuck i hic') with ha | he | ⟨hin, -⟩ | ⟨hin, -⟩
          · exact hpresent i hic' ha
          · simp [he, VmPc.systemPasses, hzero] at hpasses
          · simp [hi'] at hin
          · cases hpd : m.pc i <;>
              simp [hpd, VmPc.inCoreBarrier, VmPc.systemPasses, hzero] at hin hpasses
      · omega
    · have hcgen : m.core.gen = 2 := by rw [← hcore, hpc]; rfl
      have hall : ∀ d < m.ncores, m.pc d = .inSystemAgain := by
        intro d hd
        have hd' := hparty d hd
        rcases Vm.run_none (hstuck d hd) with ha | he | ⟨hin, hle⟩ | ⟨hin, hle⟩
        · exact absurd ha (hpresent d hd)
        · simp [he, VmPc.systemPasses, hone] at hd'
        · cases hpd : m.pc d <;> simp [hpd, VmPc.inSystemBarrier, VmPc.systemPasses] at hin hle ⊢
          omega
        · cases hpd : m.pc d <;> simp [hpd, VmPc.inCoreBarrier, VmPc.corePasses] at hin hle <;>
            omega
      rcases Vm.runPic_none hlast with ho | ⟨hin', hle'⟩ | ⟨-, ha⟩ | ⟨d, hd, hjoin, -⟩
      · exact hpic ho
      · -- everybody is inside, and the barrier is not closed on all of them
        rcases h.system.live with ⟨i, hi, hi'⟩ | ⟨i, hi, -, hlt⟩
        · by_cases hic : i = m.ncores
          · simp [Vm.systemInside, hic, hin'] at hi'
          · have hic' : i < m.ncores := by
              have := Finset.mem_range.mp hi
              omega
            simp [Vm.systemInside_core hic', hall i hic', VmPc.inSystemBarrier] at hi'
        · by_cases hic : i = m.ncores
          · simp only [Vm.systemPasses, hic, if_true] at hlt
            omega
          · have hic' : i < m.ncores := by
              have := Finset.mem_range.mp hi
              omega
            simp [Vm.systemPasses_core hic', hall i hic', VmPc.systemPasses, hone] at hlt
      · rw [hactive (by rw [hall 0 h.cores]; rfl)] at ha
        simp at ha
      · have hle := h.system.arrived (Vm.mem_parties hc) hmem
        simp [Vm.systemPasses, hjoin, PicLife.systemPasses, Nat.ne_of_lt hc,
          Vm.systemInside, hpc, VmPc.systemPasses,
          VmPc.inSystemBarrier] at hle
        have hpicgen := h.system.out m.ncores hmem
          (by simp [Vm.systemInside, hjoin, PicLife.inSystemBarrier])
        simp [Vm.systemPasses, hjoin, PicLife.systemPasses, hone] at hpicgen
  · rw [hout] at hin
    simp at hin

/-- Every run can be brought to the return of `vm_run`. -/
theorem Vm.Inv.finishes (h : m.Inv) : ∃ m', Reach Vm.step Always m m' ∧ m'.pic = .ended := by
  refine exists_reach_over Vm.left (fun _ _ _ hu hs => hu.step hs) (fun u hu hover => ?_) h
  rcases hu.live hover with ⟨c, hc, hne⟩ | hne
  · obtain ⟨v, hs⟩ := Option.ne_none_iff_exists'.mp hne
    exact ⟨.run c, v, trivial, by rw [Vm.step, if_pos hc, hs], (Vm.left_run hc hs).1⟩
  · obtain ⟨v, hs⟩ := Option.ne_none_iff_exists'.mp hne
    exact ⟨.pic, v, trivial, hs, (Vm.left_pic hu hs).1⟩

end Runs

/-- Whatever the order of the steps of the cores and of the PIC daemon: no core schedules before
core 0 has initialised the kernel, the daemon runs as long as a core does, no signal is sent to a
thread that there is not, and from everywhere `vm_run` can come to its end. -/
theorem vm_lifecycle {ncores : Nat} {m : Vm} (hn : 0 < ncores)
    (h : Reach Vm.step Always (Vm.boot ncores) m) :
    m.Safe ∧ ∃ m', Reach Vm.step Always m m' ∧ m'.pic = .ended := by
  have hm : m.Inv := h.invariant (Vm.inv_boot hn) fun _ _ _ hu _ hs => hu.step hs
  exact ⟨hm.safe, hm.finishes⟩

/-- Core 0 is in the scheduler while core 1 has still to leave the barrier. -/
theorem vm_lifecycle_two : ∃ m : Vm, m.pc 0 = .scheduler ∧ m.pc 1 = .inCore ∧ m.Safe := by
  obtain ⟨m, hm, hp⟩ := exists_reach_of_exec Vm.step (Vm.boot 2)
    [.pic, .run 0, .pic, .run 1, .pic, .run 1, .run 1, .run 1, .run 0, .run 0, .run 0, .run 0]
    (fun m => decide (m.pc 0 = .scheduler ∧ m.pc 1 = .inCore)) (by decide)
  obtain ⟨hzero, hone⟩ := of_decide_eq_true hp
  exact ⟨m, hzero, hone, (vm_lifecycle (by decide) hm).1⟩

end TinyOS
