import TinyOS.Lib.Transition
import Mathlib.Logic.Function.Basic

/-! Interrupts of the cores: `raise_interrupt`, `SIGUSR1` and `dispatch_interrupts`, while an
`ALARM` handler switches threads. -/

namespace TinyOS

open Transition

inductive Interrupt
  | ici
  | alarm
  | serialRxReady
  | serialTxReady
deriving DecidableEq

def Interrupt.no : Interrupt → Nat
  | .ici => 0
  | .alarm => 1
  | .serialRxReady => 2
  | .serialTxReady => 3

def intrBit (irq : Nat) : BitVec 32 := 1#32 <<< irq

/-- `__builtin_ctz`, for a word that is not zero. -/
def lowestIntr (ipvec : BitVec 32) : Nat := ((List.range 32).find? fun i => ipvec.getLsbD i).getD 32

/-- Where an activation of `dispatch_interrupts` is: about to read `intr_pending`, about to compare
and exchange it, in the handler, or about to compare `cpu_core_id` with the id of its core. -/
inductive DispatchPc
  | load
  | exchange (ipvec : BitVec 32)
  | handler (irq : Nat)
  | check
deriving DecidableEq

structure Activation where
  core : Nat
  pc : DispatchPc
deriving DecidableEq

/-- The cores `c < ncores`, each with a pthread of its own: `signal c` says that `SIGUSR1` is
pending for it, `sending c` is the number of calls of `raise_interrupt` that have set their bit and
are about to send the signal, and `stack t` has the activations of thread `t`, innermost first. -/
structure Intr where
  ncores : Nat
  pending : Nat → BitVec 32
  signal : Nat → Bool
  sending : Nat → Nat
  masked : Nat → Bool
  current : Nat → Nat
  stack : Nat → List Activation

/-- `handled c` is the return of a handler, and `dispatch c` any other step of the activation that
the thread on core `c` is in. -/
inductive IntrEvent
  | raise (c : Nat) (intno : Interrupt)
  | send (c : Nat)
  | restart (c : Nat)
  | mask (c : Nat)
  | unmask (c : Nat)
  | deliver (c : Nat)
  | halt (c : Nat)
  | dispatch (c : Nat)
  | handled (c : Nat)
  | switch (c : Nat) (t : Nat)
deriving DecidableEq

def IntrEvent.core : IntrEvent → Nat
  | .raise c _ | .send c | .restart c | .mask c | .unmask c | .deliver c
  | .halt c | .dispatch c | .handled c
  | .switch c _ => c

def Intr.setStack (s : Intr) (t : Nat) (l : List Activation) : Intr :=
  { s with stack := Function.update s.stack t l }

def Intr.take (s : Intr) (c : Nat) : Intr :=
  { s.setStack (s.current c) (⟨c, .load⟩ :: s.stack (s.current c)) with
    signal := Function.update s.signal c false }

def Intr.outside (s : Intr) (t : Nat) : Bool :=
  match s.stack t with
  | [] => true
  | a :: _ => match a.pc with
    | .handler _ => true
    | _ => false

/-- The thread may call `yield`: it is in no activation, or in the handler of `ALARM`. -/
def Intr.yields (s : Intr) (t : Nat) : Bool :=
  match s.stack t with
  | [] => true
  | a :: _ => a.pc = .handler Interrupt.alarm.no

/-- A step of `dispatch_interrupts` by the thread on core `c`. A failed exchange has read the word
again; at the end the activation is left. -/
def Intr.dispatch (s : Intr) (c : Nat) : Option Intr :=
  let t := s.current c
  match s.stack t with
  | [] => none
  | a :: rest =>
    let ipvec := s.pending a.core
    let reload := if ipvec = 0 then s.setStack t rest
      else s.setStack t (⟨a.core, .exchange ipvec⟩ :: rest)
    match a.pc with
    | .load => some reload
    | .exchange old =>
      if ipvec = old then
        let irq := lowestIntr old
        some { s.setStack t (⟨a.core, .handler irq⟩ :: rest) with
          pending := Function.update s.pending a.core (old &&& ~~~ intrBit irq) }
      else some reload
    | .handler _ => none
    | .check =>
      some (if c ≠ a.core then s.setStack t rest else s.setStack t (⟨a.core, .load⟩ :: rest))

/-- `raise_interrupt`, up to the signal: it is sent only if the bit was clear. -/
def Intr.raise (s : Intr) (c : Nat) (intno : Interrupt) : Intr :=
  let sel := intrBit intno.no
  let old := s.pending c
  { s with
    pending := Function.update s.pending c (old ||| sel)
    sending := if old &&& sel = 0 then Function.update s.sending c (s.sending c + 1)
      else s.sending }

/-- `restart` is the signal that `__core_restart` sends; `halt` is `sigwaitinfo` in `cpu_core_halt`,
and `switch c t` a `yield` on core `c` that resumes thread `t`. -/
def Intr.step (s : Intr) (e : IntrEvent) : Option Intr :=
  if e.core < s.ncores then
    match e with
    | .raise c intno => some (s.raise c intno)
    | .send c =>
      if 0 < s.sending c then
        some { s with
          sending := Function.update s.sending c (s.sending c - 1)
          signal := Function.update s.signal c true }
      else none
    | .restart c => some { s with signal := Function.update s.signal c true }
    | .mask c => some { s with masked := Function.update s.masked c true }
    | .unmask c => some { s with masked := Function.update s.masked c false }
    | .deliver c =>
      if s.signal c ∧ ¬ s.masked c then
        some { s.take c with masked := Function.update s.masked c true } else none
    | .halt c => if s.signal c ∧ s.masked c ∧ s.outside (s.current c) then some (s.take c) else none
    | .dispatch c => s.dispatch c
    | .handled c =>
      match s.stack (s.current c) with
      | ⟨core, .handler _⟩ :: rest => some (s.setStack (s.current c) (⟨core, .check⟩ :: rest))
      | _ => none
    | .switch c t =>
      if s.masked c ∧ s.yields (s.current c) ∧ ∀ d ∈ List.range s.ncores, s.current d ≠ t then
        some { s with current := Function.update s.current c t }
      else none
  else none

def bootIntr (ncores : Nat) : Intr where
  ncores := ncores
  pending _ := 0
  signal _ := false
  sending _ := 0
  masked _ := false
  current c := c
  stack _ := []

/-! ### Interrupts that are noticed -/

/-- Thread `t` is inside `dispatch_interrupts(c)`; every place in it comes before another look at
`intr_pending`, as long as the thread stays on the core. -/
def Intr.Inside (s : Intr) (t c : Nat) : Prop := ∃ a ∈ s.stack t, a.core = c

def Intr.Signalled (s : Intr) (c : Nat) : Prop := s.signal c = true ∨ 0 < s.sending c

/-- Somebody will look at the pending interrupts of core `c`. -/
def Intr.Noticed (s : Intr) (c : Nat) : Prop :=
  s.pending c ≠ 0 → s.Signalled c ∨ s.Inside (s.current c) c

/-- A thread that is inside `dispatch_interrupts(c)` is switched away from core `c` only if nothing
else is pending there, or a signal is on its way, or the next thread is inside it too. -/
def KeepsNotice (s : Intr) : IntrEvent → Prop
  | .switch c t => s.Inside (s.current c) c → s.pending c = 0 ∨ s.Signalled c ∨ s.Inside t c
  | _ => True

def Intr.OneCore (s : Intr) : Prop :=
  ∀ c d, c < s.ncores → d < s.ncores → s.current c = s.current d → c = d

section Steps

variable {s s' : Intr} {c d t u : Nat} {a : Activation} {rest l : List Activation} {e : IntrEvent}

theorem inside_setStack_self : (s.setStack t l).Inside t c ↔ ∃ a ∈ l, a.core = c := by
  simp [Intr.Inside, Intr.setStack]

theorem inside_setStack_ne (h : u ≠ t) : (s.setStack t l).Inside u c ↔ s.Inside u c := by
  simp [Intr.Inside, Intr.setStack, h]

/-- An activation that goes on is still one of its core. -/
theorem inside_goesOn (hs : s.stack t = a :: rest) (pc : DispatchPc) (u c : Nat) :
    (s.setStack t (⟨a.core, pc⟩ :: rest)).Inside u c ↔ s.Inside u c := by
  by_cases hu : u = t
  · subst hu
    rw [inside_setStack_self, Intr.Inside, hs]
    simp
  · exact inside_setStack_ne hu

/-- A step of `dispatch_interrupts` goes on in the activation, or leaves it: because nothing is
pending for its core, or because the thread runs on another one. -/
theorem dispatch_cases (h : s.dispatch c = some s') : ∃ a rest, s.stack (s.current c) = a :: rest ∧
    ((∃ pc pending, s' = { s.setStack (s.current c) (⟨a.core, pc⟩ :: rest) with
        pending := pending } ∧ ∀ d, pending d ≠ 0 → s.pending d ≠ 0) ∨
      (s' = s.setStack (s.current c) rest ∧ (s.pending a.core = 0 ∨ c ≠ a.core))) := by
  unfold Intr.dispatch at h
  cases hs : s.stack (s.current c) with
  | nil => simp [hs] at h
  | cons a rest =>
    simp only [hs] at h
    refine ⟨a, rest, rfl, ?_⟩
    have hreload : ∀ {s' : Intr}, (if s.pending a.core = 0 then s.setStack (s.current c) rest
        else s.setStack (s.current c) (⟨a.core, .exchange (s.pending a.core)⟩ :: rest)) = s' →
        (∃ pc pending, s' = { s.setStack (s.current c) (⟨a.core, pc⟩ :: rest) with
            pending := pending } ∧ ∀ d, pending d ≠ 0 → s.pending d ≠ 0) ∨
        (s' = s.setStack (s.current c) rest ∧ (s.pending a.core = 0 ∨ c ≠ a.core)) := by
      rintro s' rfl
      by_cases hz : s.pending a.core = 0
      · exact .inr ⟨if_pos hz, .inl hz⟩
      · exact .inl ⟨_, s.pending, if_neg hz, fun _ hd => hd⟩
    cases hpc : a.pc with
    | load =>
      simp only [hpc, Option.some.injEq] at h
      exact hreload h
    | exchange old =>
      simp only [hpc] at h
      split at h
      · rename_i hsame
        obtain rfl := Option.some.inj h
        refine .inl ⟨_, _, rfl, fun d hd hzero => hd ?_⟩
        by_cases hda : d = a.core
        · subst hda
          rw [Function.update_self, ← hsame, hzero]
          exact BitVec.zero_and
        · rwa [Function.update_of_ne hda]
      · exact hreload (Option.some.inj h)
    | handler irq => simp [hpc] at h
    | check =>
      simp only [hpc] at h
      obtain rfl := Option.some.inj h
      by_cases hc : c = a.core
      · exact .inl ⟨.load, s.pending, if_neg (not_not.mpr hc), fun _ hd => hd⟩
      · exact .inr ⟨if_pos hc, .inr hc⟩

theorem Intr.Noticed.mono (h : s.Noticed c) (hpending : s'.pending c ≠ 0 → s.pending c ≠ 0)
    (hsignal : s.Signalled c → s'.Signalled c)
    (hinside : s.Inside (s.current c) c → s'.Inside (s'.current c) c) :
    s'.Noticed c :=
  fun hp => (h (hpending hp)).imp hsignal hinside

/-- Taking the signal makes the thread on the core look. -/
theorem Intr.Noticed.take (h : s.Noticed c) (honly : s.OneCore) (hc : c < s.ncores)
    (hd : d < s.ncores) :
    (s.take d).Noticed c := by
  by_cases hcd : c = d
  · subst hcd
    intro _
    have hinside : (s.take c).Inside (s.current c) c := by
      simp [Intr.Inside, Intr.take, Intr.setStack]
    exact .inr hinside
  · have hne : s.current c ≠ s.current d := fun he => hcd (honly c d hc hd he)
    refine h.mono id (fun hsig => ?_) fun hin => (inside_setStack_ne hne).mpr hin
    simpa [Intr.Signalled, Intr.take, Intr.setStack, hcd] using hsig

theorem Intr.Noticed.dispatch (h : s.Noticed c) (honly : s.OneCore) (hc : c < s.ncores)
    (hd : d < s.ncores) (hs : s.dispatch d = some s') : s'.Noticed c := by
  obtain ⟨a, rest, hstack, ⟨pc, pending, rfl, hpending⟩ | ⟨rfl, hleft⟩⟩ := dispatch_cases hs
  · exact h.mono (hpending c) id (inside_goesOn hstack pc _ _).mpr
  · intro hp
    rcases h hp with hsig | hin
    · exact .inl hsig
    · refine .inr ?_
      show (s.setStack (s.current d) rest).Inside (s.current c) c
      by_cases hcur : s.current c = s.current d
      · obtain rfl := honly c d hc hd hcur
        rw [inside_setStack_self]
        obtain ⟨b, hb, hbc⟩ := hin
        rw [hstack, List.mem_cons] at hb
        rcases hb with rfl | hb
        · rcases hleft with hzero | hne
          · rw [hbc] at hzero
            exact absurd hzero hp
          · exact absurd hbc.symm hne
        · exact ⟨b, hb, hbc⟩
      · exact (inside_setStack_ne hcur).mpr hin

theorem Intr.Noticed.raise (h : s.Noticed c) (intno : Interrupt) : (s.raise d intno).Noticed c := by
  by_cases hcd : c = d
  · subst hcd
    by_cases hclear : s.pending c &&& intrBit intno.no = 0
    · have hsend : (s.raise c intno).Signalled c := by simp [Intr.Signalled, Intr.raise, hclear]
      exact fun _ => .inl hsend
    · refine h.mono (fun _ hzero => hclear ?_) (fun hsig => ?_) id
      · rw [hzero]
        exact BitVec.zero_and
      · have hsending : (s.raise c intno).sending = s.sending := if_neg hclear
        rwa [Intr.Signalled, hsending]
  · refine h.mono (fun hp => ?_) (fun hsig => ?_) id
    · simpa [Intr.raise, hcd] using hp
    · have hsending : (s.raise d intno).sending c = s.sending c := by
        simp only [Intr.raise]
        split
        · exact Function.update_of_ne hcd _ _
        · rfl
      rwa [Intr.Signalled, hsending]

theorem switch_noticed_iff (h : s.Noticed c) (hs : s.step (.switch c t) = some s') :
    s'.Noticed c ↔ KeepsNotice s (.switch c t) := by
  simp only [Intr.step] at hs
  split at hs
  · split at hs
    · obtain rfl := Option.some.inj hs
      have hiff : ({ s with current := Function.update s.current c t } : Intr).Noticed c ↔
          (s.pending c ≠ 0 → s.Signalled c ∨ s.Inside t c) := by
        simp only [Intr.Noticed, Function.update_self]
        rfl
      rw [hiff, KeepsNotice]
      constructor
      · intro hall _
        by_cases hp : s.pending c = 0
        · exact .inl hp
        · exact .inr (hall hp)
      · intro hkeep hp
        rcases h hp with hsig | hin
        · exact .inl hsig
        · exact (hkeep hin).resolve_left hp
    · cases hs
  · cases hs

/-- Whatever happens to core `d`, other than a switch, every core stays noticed. -/
theorem Intr.Noticed.step (h : s.Noticed c) (honly : s.OneCore) (hc : c < s.ncores)
    (hs : s.step e = some s') (hkeep : ∀ t, e ≠ .switch c t) : s'.Noticed c := by
  unfold Intr.step at hs
  split at hs
  · rename_i hcore
    cases e with
    | raise d intno =>
      obtain rfl := Option.some.inj hs
      exact h.raise intno
    | send d =>
      simp only at hs
      split at hs
      · obtain rfl := Option.some.inj hs
        refine h.mono id (fun hsig => ?_) id
        by_cases hcd : c = d
        · exact .inl (by simp [hcd])
        · simpa [Intr.Signalled, hcd] using hsig
      · cases hs
    | restart d =>
      obtain rfl := Option.some.inj hs
      refine h.mono id (fun hsig => ?_) id
      by_cases hcd : c = d
      · exact .inl (by simp [hcd])
      · simpa [Intr.Signalled, hcd] using hsig
    | mask d | unmask d =>
      obtain rfl := Option.some.inj hs
      exact h.mono id id id
    | deliver d =>
      simp only at hs
      split at hs
      · obtain rfl := Option.some.inj hs
        exact (h.take honly hc hcore).mono id id id
      · cases hs
    | halt d =>
      simp only at hs
      split at hs
      · obtain rfl := Option.some.inj hs
        exact h.take honly hc hcore
      · cases hs
    | dispatch d => exact h.dispatch honly hc hcore hs
    | handled d =>
      simp only at hs
      split at hs
      · rename_i core irq rest hstack
        obtain rfl := Option.some.inj hs
        exact h.mono id id (inside_goesOn hstack .check _ _).mpr
      · cases hs
    | switch d t =>
      simp only at hs
      split at hs
      · obtain rfl := Option.some.inj hs
        have hcd : c ≠ d := fun he => hkeep t (he ▸ rfl)
        refine h.mono id id fun hin => ?_
        show s.Inside (Function.update s.current d t c) c
        rwa [Function.update_of_ne hcd]
      · cases hs
  · cases hs

theorem step_oneCore (h : s.OneCore) (hs : s.step e = some s') : s'.ncores = s.ncores ∧
    s'.OneCore := by
  have hsame : ∀ {s' : Intr}, s'.ncores = s.ncores → s'.current = s.current →
      s'.ncores = s.ncores ∧ s'.OneCore := by
    intro s' hn hcur
    refine ⟨hn, fun c d hc hd => ?_⟩
    rw [hn] at hc hd
    rw [hcur]
    exact h c d hc hd
  unfold Intr.step at hs
  split at hs
  · cases e with
    | raise | restart | mask | unmask =>
      obtain rfl := Option.some.inj hs
      exact hsame rfl rfl
    | send | deliver | halt =>
      simp only at hs
      split at hs
      · obtain rfl := Option.some.inj hs
        exact hsame rfl rfl
      · cases hs
    | dispatch d =>
      obtain ⟨a, rest, -, ⟨pc, pending, rfl, -⟩ | ⟨rfl, -⟩⟩ := dispatch_cases hs
      · exact hsame rfl rfl
      · exact hsame rfl rfl
    | handled d =>
      simp only at hs
      split at hs
      · obtain rfl := Option.some.inj hs
        exact hsame rfl rfl
      · cases hs
    | switch x t =>
      simp only at hs
      split at hs
      · rename_i hcond
        obtain rfl := Option.some.inj hs
        refine ⟨rfl, fun c d hc hd hcur => ?_⟩
        have hfree : ∀ d, d < s.ncores → s.current d ≠ t := fun d hd =>
          hcond.2.2 d (List.mem_range.mpr hd)
        simp only [Function.update_apply] at hcur
        split at hcur <;> split at hcur
        · rename_i h1 h2
          rw [h1, h2]
        · exact absurd hcur.symm (hfree d hd)
        · exact absurd hcur (hfree c hc)
        · exact h c d hc hd hcur
      · cases hs
  · cases hs

end Steps

/-- Interrupts are noticed in every run that keeps to the condition, and a step that does not leaves
one unnoticed. -/
theorem interrupts_noticed {n : Nat} {s : Intr} (h : Reach Intr.step KeepsNotice (bootIntr n) s) :
    (∀ c, c < n → s.Noticed c) ∧
      ∀ e s', s.step e = some s' → (KeepsNotice s e ↔ ∀ c, c < n → s'.Noticed c) := by
  have hinv : s.ncores = n ∧ s.OneCore ∧ ∀ c, c < n → s.Noticed c := by
    refine h.invariant (I := fun s => s.ncores = n ∧ s.OneCore ∧ ∀ c, c < n → s.Noticed c)
      ⟨rfl, fun _ _ _ _ he => he, fun c _ hp => absurd rfl hp⟩ ?_
    rintro u e v ⟨rfl, honly, hall⟩ hkeep hstep
    obtain ⟨hn, honly'⟩ := step_oneCore honly hstep
    refine ⟨hn, honly', fun c hc => ?_⟩
    by_cases hswitch : ∃ t, e = .switch c t
    · obtain ⟨t, rfl⟩ := hswitch
      exact (switch_noticed_iff (hall c hc) hstep).mpr hkeep
    · exact (hall c hc).step honly hc hstep fun t he => hswitch ⟨t, he⟩
  obtain ⟨hn, honly, hall⟩ := hinv
  refine ⟨hall, fun e s' hstep => ⟨fun hkeep c hc => ?_, fun hafter => ?_⟩⟩
  · by_cases hswitch : ∃ t, e = .switch c t
    · obtain ⟨t, rfl⟩ := hswitch
      exact (switch_noticed_iff (hall c hc) hstep).mpr hkeep
    · exact (hall c hc).step honly (hn ▸ hc) hstep fun t he => hswitch ⟨t, he⟩
  · cases e with
    | switch c t =>
      have hc : c < n := by
        by_contra hlt
        simp only [Intr.step, IntrEvent.core, hn] at hstep
        rw [if_neg hlt] at hstep
        cases hstep
      exact (switch_noticed_iff (hall c hc) hstep).mp (hafter c hc)
    | _ => trivial

theorem interrupts_noticed_two : ∃ s, Reach Intr.step KeepsNotice (bootIntr 2) s ∧ s.pending 0 ≠ 0 ∧
    s.signal 0 = false ∧ s.Noticed 0 := by
  obtain ⟨s, hs, hp⟩ := exists_reach_of_guarded Intr.step
    (fun _ e => match e with | .switch _ _ => false | _ => true) (bootIntr 2)
    [.raise 0 .alarm, .send 0, .raise 0 .ici, .send 0, .deliver 0, .dispatch 0, .dispatch 0]
    (fun s => decide (s.pending 0 ≠ 0 ∧ s.signal 0 = false)) (by decide)
  have hreach : Reach Intr.step KeepsNotice (bootIntr 2) s := hs.mono fun u e hok => by
    cases e with
    | switch c t => cases hok
    | _ => trivial
  simp only [decide_eq_true_eq] at hp
  exact ⟨s, hreach, hp.1, hp.2, (interrupts_noticed hreach).1 0 (by decide)⟩

/-- Two interrupts are pending when the signal is taken. The handler of the first, `ALARM`, switches
threads; the interrupted one goes on on core 1 and gives up, and nobody looks at the second. -/
theorem interrupt_unnoticed : ∃ s, Reach Intr.step Always (bootIntr 2) s ∧ ¬ s.Noticed 0 ∧
    s.current 1 = 0 ∧ s.stack 0 = [] ∧ s.stack 1 = [] ∧ s.stack 2 = [] := by
  obtain ⟨s, hs, hp⟩ := exists_reach_of_exec Intr.step (bootIntr 2)
    [.raise 0 .alarm, .send 0, .raise 0 .serialRxReady, .send 0, .deliver 0,
      .dispatch 0, .dispatch 0, .switch 0 2,
      .unmask 0, .mask 1, .switch 1 0, .handled 1, .dispatch 1]
    (fun s => decide
      (s.pending 0 ≠ 0 ∧ s.signal 0 = false ∧ s.sending 0 = 0 ∧ s.current 0 = 2 ∧ s.current 1 = 0 ∧
      s.stack 0 = [] ∧ s.stack 1 = [] ∧ s.stack 2 = [])) (by decide)
  simp only [decide_eq_true_eq] at hp
  obtain ⟨hpending, hsignal, hsending, hcur, hcur1, hstack⟩ := hp
  refine ⟨s, hs, fun h => ?_, hcur1, hstack⟩
  rcases h hpending with (hsig | hsend) | ⟨a, ha, -⟩
  · rw [hsignal] at hsig
    cases hsig
  · omega
  · rw [hcur, hstack.2.2] at ha
    cases ha

end TinyOS
