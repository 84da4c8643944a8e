import TinyOS.TerminalStreams

/-! Readers asleep on a terminal. `Cond_Broadcast` in `serial_rx_handler` takes no kernel lock: it
is the masked interrupt that closes the gap between a failed read and the sleep, and only on core
0. -/

namespace TinyOS

open Transition

/-- An interrupt that will wake the readers of terminal `i` is on its way. -/
def Terminals.Coming (m : Terminals) (i : Nat) : Prop :=
  m.pending .serialRxReady = true ∨ (∃ todo selected now, m.pic = .raising .rx todo selected now) ∨
    ∃ j, m.handler = some j ∧ j ≤ i

/-- The PIC daemon watches the keyboard of terminal `i`, or has seen it. -/
def Terminals.Attended (m : Terminals) (i : Nat) : Prop := (m.dev .rx i).ready = false ∨ m.Coming i

def Terminals.Needs (m : Terminals) (i : Nat) : Prop :=
  (m.rxReady i).waitset ≠ [] ∨ ∃ t c size, m.holder = some (t, c) ∧ m.pc t = .starved i size []

structure Terminals.Watched (m : Terminals) : Prop where
  core : ∀ t c, m.holder = some (t, c) → (m.pc t).reads = true → c = 0 ∧ m.handler = none
  attended : ∀ i, i < m.nterm → m.Needs i → m.Attended i

/-- A thread begins to read, or wakes up, on core 0. -/
def ReadersOnCoreZero (m : Terminals) : SerialEvent → Prop
  | .read c _ _ _ => c = 0
  | .run c _ => m.holder = none → c = 0
  | _ => True

section Frame

variable {m m' : Terminals} {t : ThreadId} {i j c size count : Nat} {pc : SerialPc}
  {buf : List UInt8} {ret : Option SerialRet} {e : SerialEvent}

/-- What a thread never does: raise or take an interrupt, or make a device ready. -/
structure Terminals.Apart (m m' : Terminals) : Prop where
  nterm : m'.nterm = m.nterm
  pending : m'.pending = m.pending
  pic : m'.pic = m.pic
  handler : m'.handler = m.handler
  ready : ∀ d j, (m'.dev d j).ready = true → (m.dev d j).ready = true

theorem Terminals.Apart.coming (h : m.Apart m') (hc : m.Coming i) : m'.Coming i := by
  rw [Coming, h.pending, h.pic, h.handler]
  exact hc

theorem Terminals.Apart.attended (h : m.Apart m') (ha : m.Attended i) : m'.Attended i := by
  rcases ha with hr | hc
  · refine .inl (Bool.eq_false_iff.mpr fun hr' => ?_)
    rw [h.ready _ _ hr'] at hr
    exact Bool.noConfusion hr
  · exact .inr (h.coming hc)

theorem Terminals.dev_setPc : (m.setPc t pc).dev = m.dev := rfl

theorem Terminals.ready_setDev {f : IoDevice → IoDevice} {dir d : IoDirection}
    (h : ((m.setDev dir i f).dev d j).ready = true)
    (hf : ∀ d, (f d).ready = true → d.ready = true) :
    (m.dev d j).ready = true := by
  rw [dev_setDev] at h
  split at h
  · rename_i he
    rw [he.1, he.2]
    exact hf _ h
  · exact h

theorem Terminals.apart_readByte : m.Apart (m.readByte t i size buf) := by
  unfold readByte
  split
  · exact ⟨rfl, rfl, rfl, rfl, fun _ _ h => h⟩
  · refine ⟨rfl, rfl, rfl, rfl, fun d j h => ?_⟩
    rw [dev_setPc] at h
    exact ready_setDev h fun _ h => h

theorem Terminals.apart_writeByte {b : UInt8} : m.Apart (m.writeByte t i buf count b) := by
  unfold writeByte
  split
  · refine ⟨rfl, rfl, rfl, rfl, fun d j h => ?_⟩
    rw [dev_setPc] at h
    exact ready_setDev h fun _ h => h
  · exact ⟨rfl, rfl, rfl, rfl, fun _ _ h => h⟩

theorem Terminals.apart_mark (dir : IoDirection) : m.Apart ((m.mark dir i).setPc t pc) := by
  refine ⟨rfl, rfl, rfl, rfl, fun d j h => ?_⟩
  rw [dev_setPc, mark] at h
  exact ready_setDev h fun _ h => Bool.noConfusion h

theorem Terminals.apart_inKernel (h : m.inKernel t pc = some (m', ret)) : m.Apart m' := by
  have hquiet : ∀ m₁ : Terminals, m₁.nterm = m.nterm → m₁.pending = m.pending → m₁.pic = m.pic →
      m₁.handler = m.handler → m₁.dev = m.dev → m.Apart m₁ :=
    fun m₁ h1 h2 h3 h4 h5 => ⟨h1, h2, h3, h4, fun d j hr => by rwa [h5] at hr⟩
  cases pc with
  | reading i size buf =>
    simp only [inKernel] at h
    split at h
    · obtain ⟨rfl, -⟩ : m.readByte t i size buf = m' ∧ none = ret := by simpa using h
      exact apart_readByte
    · obtain ⟨rfl, -⟩ := Prod.mk.inj (Option.some.inj h)
      exact hquiet _ rfl rfl rfl rfl rfl
  | unread i size buf =>
    obtain ⟨rfl, -⟩ : (m.mark .rx i).setPc t (.starved i size buf) = m' ∧
      none = ret := by simpa [inKernel] using h
    exact apart_mark .rx
  | starved i size buf =>
    simp only [inKernel] at h
    split at h
    · obtain ⟨rfl, -⟩ : m.wait t i size = m' ∧ none = ret := by simpa using h
      exact hquiet _ rfl rfl rfl rfl rfl
    · obtain ⟨rfl, -⟩ := Prod.mk.inj (Option.some.inj h)
      exact hquiet _ rfl rfl rfl rfl rfl
  | writing i buf count =>
    simp only [inKernel] at h
    split at h
    · rename_i b hb
      obtain ⟨rfl, -⟩ : m.writeByte t i buf count b = m' ∧ none = ret := by simpa using h
      exact apart_writeByte
    · obtain ⟨rfl, -⟩ := Prod.mk.inj (Option.some.inj h)
      exact hquiet _ rfl rfl rfl rfl rfl
  | unwritten i buf count =>
    obtain ⟨rfl, -⟩ : (m.mark .tx i).setPc t (.refused i buf count) = m' ∧
      none = ret := by simpa [inKernel] using h
    exact apart_mark .tx
  | refused i buf count =>
    simp only [inKernel] at h
    split at h
    · obtain ⟨rfl, -⟩ : m.setPc t (.writing i buf count) = m' ∧ none = ret := by simpa using h
      exact hquiet _ rfl rfl rfl rfl rfl
    · obtain ⟨rfl, -⟩ := Prod.mk.inj (Option.some.inj h)
      exact hquiet _ rfl rfl rfl rfl rfl
  | user | asleep => simp [inKernel] at h

theorem Terminals.apart_run (h : m.run c t = some (m', ret)) : m.Apart m' := by
  unfold run at h
  split at h
  · split at h
    · have ha := apart_inKernel h
      exact ⟨ha.nterm, ha.pending, ha.pic, ha.handler, ha.ready⟩
    · simp at h
  · split at h
    · split at h
      · simp at h
      · obtain ⟨rfl, -⟩ := Prod.mk.inj (Option.some.inj h)
        exact ⟨rfl, rfl, rfl, rfl, fun _ _ h => h⟩
    · simp at h

theorem Terminals.enter_eq (h : m.enter c t i pc = some m') :
    m.holder = none ∧ m' = { m.setPc t pc with holder := some (t, c) } := by
  unfold enter at h
  split at h
  · rename_i hok
    exact ⟨hok.1, (Option.some.inj h).symm⟩
  · simp at h

theorem Terminals.nterm_step (h : m.step e = some m') : m'.nterm = m.nterm := by
  obtain ⟨⟨m₁, ret⟩, hret, rfl⟩ := Option.map_eq_some_iff.mp h
  clear h
  cases e with
  | type i bytes =>
    obtain ⟨rfl, -⟩ := Prod.mk.inj (Option.some.inj hret)
    rfl
  | display i n =>
    obtain ⟨rfl, -⟩ := Prod.mk.inj (Option.some.inj hret)
    rfl
  | read c t i size | write c t i buf =>
    simp only [stepRet, Option.ite_none_right_eq_some, Option.map_eq_some_iff,
      Prod.mk.injEq] at hret
    obtain ⟨-, _, hs, rfl, -⟩ := hret
    obtain ⟨-, rfl⟩ := enter_eq hs
    rfl
  | run c t =>
    simp only [stepRet, Option.ite_none_right_eq_some] at hret
    exact (apart_run hret.2).nterm
  | picFails =>
    simp only [stepRet] at hret
    split at hret
    · obtain ⟨rfl, -⟩ := Prod.mk.inj (Option.some.inj hret)
      rfl
    · simp at hret
  | picCollect | picSelect | picLook | picRaise | interrupt | signal =>
    simp only [stepRet, Option.map_eq_some_iff, Prod.mk.injEq] at hret
    obtain ⟨_, hs, rfl, -⟩ := hret
    simp only [picCollect, picSelect, picLook, picRaise, interrupt, signal] at hs
    repeat' split at hs
    all_goals first
      | (simp only [Option.some.injEq] at hs; subst hs; rfl)
      | simp at hs

end Frame

section Steps

variable {m m' : Terminals} {t : ThreadId} {i c size : Nat} {pc : SerialPc}
  {ret : Option SerialRet} {e : SerialEvent}

/-- Only the handler, at terminal `i`, ends an interrupt that is on its way. -/
theorem Terminals.Coming.step (hc : m.Coming i) (hi : i < m.nterm) (h : m.step e = some m') :
    m'.Coming i ∨ (m'.rxReady i).waitset = [] ∧ m'.holder = m.holder ∧
    m'.pc = m.pc ∧ m.handler ≠ none := by
  obtain ⟨⟨m₁, ret⟩, hret, rfl⟩ := Option.map_eq_some_iff.mp h
  clear h
  cases e with
  | type | display =>
    obtain ⟨rfl, -⟩ := Prod.mk.inj (Option.some.inj hret)
    exact .inl hc
  | read | write =>
    simp only [stepRet, Option.ite_none_right_eq_some, Option.map_eq_some_iff,
      Prod.mk.injEq] at hret
    obtain ⟨-, _, hs, rfl, -⟩ := hret
    obtain ⟨-, rfl⟩ := enter_eq hs
    exact .inl hc
  | run c t =>
    simp only [stepRet, Option.ite_none_right_eq_some] at hret
    exact .inl ((apart_run hret.2).coming hc)
  | picFails =>
    simp only [stepRet] at hret
    split at hret
    · rename_i fds hpic
      obtain ⟨rfl, -⟩ := Prod.mk.inj (Option.some.inj hret)
      refine .inl (hc.imp id (Or.imp (fun hr => ?_) id))
      simp [hpic] at hr
    · simp at hret
  | picCollect =>
    simp only [stepRet, Option.map_eq_some_iff, Prod.mk.injEq] at hret
    obtain ⟨_, hs, rfl, -⟩ := hret
    unfold picCollect at hs
    split at hs <;> simp only [Option.some.injEq, reduceCtorEq] at hs <;>
      subst hs <;> rename_i hpic <;>
      refine .inl (hc.imp id (Or.imp (fun hr => ?_) id)) <;> simp [hpic] at hr
  | picSelect now =>
    simp only [stepRet, Option.map_eq_some_iff, Prod.mk.injEq] at hret
    obtain ⟨_, hs, rfl, -⟩ := hret
    unfold picSelect at hs
    split at hs <;> simp only [Option.some.injEq, reduceCtorEq] at hs
    subst hs
    rename_i hpic
    refine .inl (hc.imp id (Or.imp (fun hr => ?_) id))
    simp [hpic] at hr
  | picLook =>
    simp only [stepRet, Option.map_eq_some_iff, Prod.mk.injEq] at hret
    obtain ⟨_, hs, rfl, -⟩ := hret
    unfold picLook at hs
    split at hs
    · rename_i hpic
      split at hs <;> simp only [Option.some.injEq] at hs <;> subst hs <;>
        refine .inl (hc.imp id (Or.imp (fun hr => ?_) id)) <;> simp [hpic] at hr
    · rename_i hpic
      simp only [Option.some.injEq] at hs
      subst hs
      refine .inl (hc.imp id (Or.imp (fun hr => ?_) id))
      simp [hpic] at hr
    · simp at hs
  | picRaise =>
    simp only [stepRet, Option.map_eq_some_iff, Prod.mk.injEq] at hret
    obtain ⟨_, hs, rfl, -⟩ := hret
    unfold picRaise at hs
    split at hs <;> simp only [Option.some.injEq, reduceCtorEq] at hs
    subst hs
    rename_i dir todo selected now hpic
    rcases hc with hp | ⟨todo', selected', now', hr⟩ | hh
    · refine .inl (.inl ?_)
      cases dir <;> simp [IoDirection.interrupt, hp]
    · rw [hpic] at hr
      obtain ⟨rfl, -⟩ := PicPc.raising.inj hr
      exact .inl (.inl (by simp [IoDirection.interrupt]))
    · exact .inl (.inr (.inr hh))
  | interrupt intno =>
    simp only [stepRet, Option.map_eq_some_iff, Prod.mk.injEq] at hret
    obtain ⟨_, hs, rfl, -⟩ := hret
    unfold interrupt at hs
    split at hs <;> simp only [Option.some.injEq, reduceCtorEq] at hs
    subst hs
    rename_i hok
    rcases hc with hp | hr | ⟨j, hj, -⟩
    · by_cases hrx : intno = .serialRxReady
      · exact .inl (.inr (.inr ⟨0, by simp [hrx], Nat.zero_le _⟩))
      · exact .inl (.inl (by simp [Ne.symm hrx, hp]))
    · exact .inl (.inr (.inl hr))
    · simp [hok.2.2] at hj
  | signal =>
    simp only [stepRet, Option.map_eq_some_iff, Prod.mk.injEq] at hret
    obtain ⟨_, hs, rfl, -⟩ := hret
    unfold signal at hs
    split at hs
    · simp at hs
    · rename_i j hj
      rcases hc with hp | hr | ⟨j', hj', hle⟩
      · split at hs <;> simp only [Option.some.injEq] at hs <;> subst hs <;> exact .inl (.inl hp)
      · split at hs <;> simp only [Option.some.injEq] at hs <;> subst hs <;>
          exact .inl (.inr (.inl hr))
      · obtain rfl : j = j' := by simpa [hj] using hj'
        rw [if_pos (Nat.lt_of_le_of_lt hle hi)] at hs
        obtain rfl := Option.some.inj hs
        rcases Nat.lt_or_eq_of_le hle with hlt | rfl
        · exact .inl (.inr (.inr ⟨j + 1, rfl, hlt⟩))
        · exact .inr ⟨by simp [kernelBroadcast], rfl, rfl, by simp [hj]⟩

theorem Terminals.Attended.step (ha : m.Attended i) (hi : i < m.nterm) (h : m.step e = some m') :
    m'.Attended i ∨ (m'.rxReady i).waitset = [] ∧ m'.holder = m.holder ∧
    m'.pc = m.pc ∧ m.handler ≠ none := by
  rcases ha with hr | hc
  swap
  · exact (hc.step hi h).imp .inr id
  have hkeep : ∀ m₁ : Terminals, ((m₁.dev .rx i).ready = true → (m.dev .rx i).ready = true) →
      m₁.Attended i := fun m₁ h₁ =>
        .inl (Bool.eq_false_iff.mpr fun h₂ => Bool.eq_false_iff.mp hr (h₁ h₂))
  left
  obtain ⟨⟨m₁, ret⟩, hret, rfl⟩ := Option.map_eq_some_iff.mp h
  clear h
  cases e with
  | type k bytes =>
    obtain ⟨rfl, -⟩ := Prod.mk.inj (Option.some.inj hret)
    refine hkeep _ fun h => ?_
    replace h : ((m.setDev .rx k fun d => { d with fifo := d.fifo ++ bytes }).dev .rx i).ready =
      true := h
    exact ready_setDev h fun _ h => h
  | display k n =>
    obtain ⟨rfl, -⟩ := Prod.mk.inj (Option.some.inj hret)
    refine hkeep _ fun h => ?_
    replace h : ((m.setDev .tx k fun d => { d with fifo := d.fifo.drop n }).dev .rx i).ready =
      true := h
    exact ready_setDev h fun _ h => h
  | read | write =>
    simp only [stepRet, Option.ite_none_right_eq_some, Option.map_eq_some_iff,
      Prod.mk.injEq] at hret
    obtain ⟨-, _, hs, rfl, -⟩ := hret
    obtain ⟨-, rfl⟩ := enter_eq hs
    exact .inl hr
  | run c t =>
    simp only [stepRet, Option.ite_none_right_eq_some] at hret
    exact (apart_run hret.2).attended (.inl hr)
  | picFails =>
    simp only [stepRet] at hret
    split at hret
    · obtain ⟨rfl, -⟩ := Prod.mk.inj (Option.some.inj hret)
      exact .inl hr
    · simp at hret
  | picLook =>
    simp only [stepRet, Option.map_eq_some_iff, Prod.mk.injEq] at hret
    obtain ⟨_, hs, rfl, -⟩ := hret
    unfold picLook at hs
    split at hs
    · rename_i dir k todo selected now hpic
      split at hs <;> simp only [Option.some.injEq] at hs <;> subst hs
      · cases dir with
        | rx => exact .inr (.inr (.inl ⟨todo, selected, now, rfl⟩))
        | tx =>
          refine .inl ?_
          show ((m.setDev .tx k fun d => { d with ready := true, lastInt := now }).dev
            .rx i).ready = false
          rw [dev_setDev]
          simpa using hr
      · exact .inl hr
    · obtain rfl := Option.some.inj hs
      exact .inl hr
    · simp at hs
  | picCollect | picSelect | picRaise | interrupt | signal =>
    simp only [stepRet, Option.map_eq_some_iff, Prod.mk.injEq] at hret
    obtain ⟨_, hs, rfl, -⟩ := hret
    simp only [picCollect, picSelect, picRaise, interrupt, signal] at hs
    repeat' split at hs
    all_goals first
      | (simp only [Option.some.injEq] at hs; subst hs; exact .inl hr)
      | simp at hs

structure Terminals.Moves (m : Terminals) (t : ThreadId) (pc : SerialPc)
    (m' : Terminals) : Prop where
  holder : m'.holder = none ∨ m'.holder = m.holder ∧ (m'.pc t).reads = pc.reads
  starved : ∀ i size, m'.holder ≠ none → m'.pc t = .starved i size [] → (m'.dev .rx i).ready = false
  sleepers : ∀ i, (m'.rxReady i).waitset ≠ [] → (m.rxReady i).waitset ≠ [] ∨
    ∃ size, pc = .starved i size []

theorem Terminals.moves_inKernel (h : m.inKernel t pc = some (m', ret)) : m.Moves t pc m' := by
  cases pc with
  | reading i size buf =>
    simp only [inKernel] at h
    split at h
    · obtain ⟨rfl, -⟩ : m.readByte t i size buf = m' ∧ none = ret := by simpa using h
      unfold readByte
      split <;>
        exact ⟨.inr ⟨rfl, by simp [setPc, SerialPc.reads]⟩, by simp [setPc], fun _ hw => .inl hw⟩
    · obtain ⟨rfl, -⟩ := Prod.mk.inj (Option.some.inj h)
      exact ⟨.inl rfl, fun _ _ hn => absurd rfl hn, fun _ hw => .inl hw⟩
  | unread i size buf =>
    obtain ⟨rfl, -⟩ : (m.mark .rx i).setPc t (.starved i size buf) = m' ∧
      none = ret := by simpa [inKernel] using h
    refine ⟨.inr ⟨rfl, by simp [setPc, SerialPc.reads]⟩, fun j _ _ hpc => ?_, fun _ hw => .inl hw⟩
    obtain ⟨rfl, -⟩ : i = j ∧ _ := by simpa [setPc] using hpc
    rw [dev_setPc, mark, dev_setDev]
    simp
  | starved i size buf =>
    simp only [inKernel] at h
    split at h
    · rename_i hnil
      subst hnil
      obtain ⟨rfl, -⟩ : m.wait t i size = m' ∧ none = ret := by simpa using h
      refine ⟨.inl rfl, fun _ _ hn => absurd rfl hn, fun j hw => ?_⟩
      by_cases hj : j = i
      · subst hj
        exact .inr ⟨size, rfl⟩
      · exact .inl (by simpa [wait, hj] using hw)
    · obtain ⟨rfl, -⟩ := Prod.mk.inj (Option.some.inj h)
      exact ⟨.inl rfl, fun _ _ hn => absurd rfl hn, fun _ hw => .inl hw⟩
  | writing i buf count =>
    simp only [inKernel] at h
    split at h
    · rename_i b hb
      obtain ⟨rfl, -⟩ : m.writeByte t i buf count b = m' ∧ none = ret := by simpa using h
      unfold writeByte
      split <;>
        exact ⟨.inr ⟨rfl, by simp [setPc, SerialPc.reads]⟩, by simp [setPc], fun _ hw => .inl hw⟩
    · obtain ⟨rfl, -⟩ := Prod.mk.inj (Option.some.inj h)
      exact ⟨.inl rfl, fun _ _ hn => absurd rfl hn, fun _ hw => .inl hw⟩
  | unwritten i buf count =>
    obtain ⟨rfl, -⟩ : (m.mark .tx i).setPc t (.refused i buf count) = m' ∧
      none = ret := by simpa [inKernel] using h
    exact ⟨.inr ⟨rfl, by simp [setPc, SerialPc.reads]⟩, by simp [setPc], fun _ hw => .inl hw⟩
  | refused i buf count =>
    simp only [inKernel] at h
    split at h
    · obtain ⟨rfl, -⟩ : m.setPc t (.writing i buf count) = m' ∧ none = ret := by simpa using h
      exact ⟨.inr ⟨rfl, by simp [setPc, SerialPc.reads]⟩, by simp [setPc], fun _ hw => .inl hw⟩
    · obtain ⟨rfl, -⟩ := Prod.mk.inj (Option.some.inj h)
      exact ⟨.inl rfl, fun _ _ hn => absurd rfl hn, fun _ hw => .inl hw⟩
  | user | asleep => simp [inKernel] at h

/-- A thread on core 0 leaves no reader that nobody attends to. -/
theorem Terminals.Watched.run (hm : m.Watched) (hcore : m.holder = none → c = 0)
    (hav : m.available c = true) (h : m.run c t = some (m', ret)) : m'.Watched := by
  have hapart := apart_run h
  unfold Terminals.run at h
  split at h
  · rename_i u d hh
    split at h
    · rename_i hok
      obtain ⟨rfl, hsame⟩ := hok
      have hmoves := moves_inKernel h
      refine ⟨fun t' c' hh' hr => ?_, fun i hi hn => ?_⟩
      · rcases hmoves.holder with hnone | ⟨heq, hreads⟩
        · simp [hnone] at hh'
        · obtain ⟨rfl, rfl⟩ : u = t' ∧ c = c' := by simpa [heq] using hh'
          rw [hreads] at hr
          obtain ⟨hzero, hhandler⟩ := hm.core u d hh hr
          exact ⟨hsame hr ▸ hzero, hapart.handler.trans hhandler⟩
      · rw [hapart.nterm] at hi
        rcases hn with hw | ⟨t', c', size, hh', hpc⟩
        · rcases hmoves.sleepers i hw with hw | ⟨size, hpc⟩
          · exact hapart.attended (hm.attended i hi (.inl hw))
          · exact hapart.attended (hm.attended i hi (.inr ⟨u, d, size, hh, hpc⟩))
        · rcases hmoves.holder with hnone | ⟨heq, -⟩
          · simp [hnone] at hh'
          · obtain ⟨rfl, rfl⟩ : u = t' ∧ c = c' := by simpa [heq] using hh'
            exact .inl (hmoves.starved i size (by simp [hh']) hpc)
    · simp at h
  · rename_i hh
    split at h
    · rename_i i size hpc
      split at h
      · simp at h
      · obtain ⟨rfl, -⟩ := Prod.mk.inj (Option.some.inj h)
        refine ⟨fun t' c' hh' _ => ?_, fun j hj hn => ?_⟩
        · obtain ⟨rfl, rfl⟩ : t = t' ∧ c = c' := by simpa using hh'
          refine ⟨hcore hh, ?_⟩
          show m.handler = none
          simpa [available, hcore hh] using hav
        · rcases hn with hw | ⟨t', c', size', hh', hpc'⟩
          · exact hapart.attended (hm.attended j hj (.inl hw))
          · obtain ⟨rfl, rfl⟩ : t = t' ∧ c = c' := by simpa using hh'
            simp [setPc] at hpc'
    · simp at h

/-- Other steps keep the sleepers, or wake some. -/
theorem Terminals.Watched.quiet (hm : m.Watched) (h : m.step e = some m')
    (hholder : m'.holder = m.holder)
    (hpc : m'.pc = m.pc) (hsleep : ∀ i, (m'.rxReady i).waitset ≠ [] → (m.rxReady i).waitset ≠ [])
    (hhandler : m.handler = none → m.masked = true → m'.handler = none) : m'.Watched := by
  have hmasked : ∀ t c, m.holder = some (t, c) → (m.pc t).reads = true →
      m.handler = none ∧ m.masked = true := by
    rintro t c hh hr
    obtain ⟨rfl, hnone⟩ := hm.core t c hh hr
    exact ⟨hnone, by simp [masked, hh, hr]⟩
  refine ⟨fun t c hh hr => ?_, fun i hi hn => ?_⟩
  · rw [hholder] at hh
    rw [hpc] at hr
    exact ⟨(hm.core t c hh hr).1, hhandler (hmasked t c hh hr).1 (hmasked t c hh hr).2⟩
  · rw [nterm_step h] at hi
    have hold : m.Needs i := by
      rcases hn with hw | ⟨t, c, size, hh, hp⟩
      · exact .inl (hsleep i hw)
      · exact .inr ⟨t, c, size, hholder ▸ hh, hpc ▸ hp⟩
    rcases (hm.attended i hi hold).step hi h with ha | ⟨hw, -, -, hbusy⟩
    · exact ha
    · rcases hn with hw' | ⟨t, c, size, hh, hp⟩
      · exact absurd hw hw'
      · rw [hholder] at hh
        rw [hpc] at hp
        exact absurd (hm.core t c hh (by rw [hp]; rfl)).2 hbusy

theorem Terminals.Watched.step (hm : m.Watched) (hok : ReadersOnCoreZero m e)
    (h : m.step e = some m') :
    m'.Watched := by
  obtain ⟨⟨m₁, ret⟩, hret, rfl⟩ := Option.map_eq_some_iff.mp h
  cases e with
  | type | display =>
    obtain ⟨rfl, -⟩ := Prod.mk.inj (Option.some.inj hret)
    exact hm.quiet h rfl rfl (fun _ hw => hw) fun hn _ => hn
  | read c t i size =>
    simp only [stepRet, Option.ite_none_right_eq_some, Option.map_eq_some_iff,
      Prod.mk.injEq] at hret
    obtain ⟨hav, _, hs, rfl, -⟩ := hret
    obtain ⟨hfree, rfl⟩ := enter_eq hs
    refine ⟨fun t' c' hh' _ => ?_, fun j hj hn => hm.attended j hj ?_⟩
    · obtain ⟨rfl, rfl⟩ : t = t' ∧ c = c' := by simpa using hh'
      have hzero : c = 0 := hok
      refine ⟨hzero, ?_⟩
      show m.handler = none
      simpa [available, hzero] using hav
    · rcases hn with hw | ⟨t', c', size', hh', hpc'⟩
      · exact .inl hw
      · obtain ⟨rfl, rfl⟩ : t = t' ∧ c = c' := by simpa using hh'
        simp [setPc] at hpc'
  | write c t i buf =>
    simp only [stepRet, Option.ite_none_right_eq_some, Option.map_eq_some_iff,
      Prod.mk.injEq] at hret
    obtain ⟨hav, _, hs, rfl, -⟩ := hret
    obtain ⟨hfree, rfl⟩ := enter_eq hs
    refine ⟨fun t' c' hh' hr => ?_, fun j hj hn => hm.attended j hj ?_⟩
    · obtain ⟨rfl, rfl⟩ : t = t' ∧ c = c' := by simpa using hh'
      simp [setPc, SerialPc.reads] at hr
    · rcases hn with hw | ⟨t', c', size', hh', hpc'⟩
      · exact .inl hw
      · obtain ⟨rfl, rfl⟩ : t = t' ∧ c = c' := by simpa using hh'
        simp [setPc] at hpc'
  | run c t =>
    simp only [stepRet, Option.ite_none_right_eq_some] at hret
    exact hm.run hok hret.1 hret.2
  | picFails =>
    simp only [stepRet] at hret
    split at hret
    · obtain ⟨rfl, -⟩ := Prod.mk.inj (Option.some.inj hret)
      exact hm.quiet h rfl rfl (fun _ hw => hw) fun hn _ => hn
    · simp at hret
  | interrupt intno =>
    simp only [stepRet, Option.map_eq_some_iff, Prod.mk.injEq] at hret
    obtain ⟨_, hs, rfl, -⟩ := hret
    unfold interrupt at hs
    split at hs <;> simp only [Option.some.injEq, reduceCtorEq] at hs
    subst hs
    rename_i hok
    exact hm.quiet h rfl rfl (fun _ hw => hw) fun _ hmask => by simp [hok.2.1] at hmask
  | signal =>
    simp only [stepRet, Option.map_eq_some_iff, Prod.mk.injEq] at hret
    obtain ⟨_, hs, rfl, -⟩ := hret
    unfold signal at hs
    split at hs
    · simp at hs
    · rename_i j hj
      split at hs <;> simp only [Option.some.injEq] at hs <;> subst hs
      · refine hm.quiet h rfl rfl (fun i hw => ?_) fun hn _ => by simp [hj] at hn
        by_cases hi : i = j
        · subst hi
          simp [kernelBroadcast] at hw
        · simpa [hi] using hw
      · exact hm.quiet h rfl rfl (fun _ hw => hw) fun _ _ => rfl
  | picCollect | picSelect | picLook | picRaise =>
    simp only [stepRet, Option.map_eq_some_iff, Prod.mk.injEq] at hret
    obtain ⟨_, hs, rfl, -⟩ := hret
    simp only [picCollect, picSelect, picLook, picRaise] at hs
    repeat' split at hs
    all_goals first
      | (simp only [Option.some.injEq] at hs; subst hs
         exact hm.quiet h rfl rfl (fun _ hw => hw) fun hn _ => hn)
      | simp at hs

theorem Terminals.watched_boot (nterm capacity now : Nat) (kbd : Nat → List UInt8) :
    (boot nterm capacity now kbd).Watched where
  core := by simp [boot]
  attended := by simp [boot, Needs, condInit]

end Steps

section Handler

variable {m m' : Terminals} {i j : Nat}

/-- Terminals that core 0 has left alone but for sleepers, pending interrupts and its handler. -/
structure Terminals.Served (m m' : Terminals) : Prop where
  nterm : m'.nterm = m.nterm
  masked : m'.masked = m.masked

theorem Terminals.Served.trans {m₁ m₂ m₃ : Terminals} (h : m₁.Served m₂)
    (h' : m₂.Served m₃) : m₁.Served m₃ :=
  ⟨h'.nterm.trans h.nterm, h'.masked.trans h.masked⟩

theorem Terminals.step_signal_lt (hj : m.handler = some j) (hlt : j < m.nterm) :
    m.step .signal = some { m with
      handler := some (j + 1)
      rxReady := Function.update m.rxReady j (kernelBroadcast (m.rxReady j)) } := by
  simp [Terminals.step, stepRet, signal, hj, hlt]

theorem Terminals.step_signal_end (hj : m.handler = some j) (hge : m.nterm ≤ j) :
    m.step .signal = some { m with handler := none } := by
  simp [Terminals.step, stepRet, signal, hj, Nat.not_lt.mpr hge]

theorem Terminals.signal_reaches (hj : m.handler = some j) (hle : j ≤ i) (hi : i < m.nterm) :
    ∃ m', exec Terminals.step m (List.replicate (i + 1 - j) .signal) = some m' ∧
    (m'.rxReady i).waitset = [] := by
  obtain ⟨n, hn⟩ : ∃ n, n = i - j := ⟨_, rfl⟩
  induction n generalizing m j with
  | zero =>
    obtain rfl : j = i := by omega
    have hone : j + 1 - j = 1 := by omega
    rw [hone]
    exact ⟨_, by rw [List.replicate_one, exec, step_signal_lt hj hi]; rfl,
      by simp [kernelBroadcast]⟩
  | succ n ih =>
    have hrounds : i + 1 - j = (i + 1 - (j + 1)) + 1 := by omega
    rw [hrounds, List.replicate_succ]
    simp only [exec, step_signal_lt hj (by omega), Option.bind_some]
    exact ih rfl (by omega) hi (by omega)

/-- The handler comes to its end, with nothing lost of what is pending. -/
theorem Terminals.signal_ends (hj : m.handler = some j) :
    ∃ k m', k ≤ m.nterm - j + 1 ∧ exec Terminals.step m (List.replicate k .signal) = some m' ∧
      m'.handler = none ∧ m'.pending = m.pending ∧ m.Served m' := by
  obtain ⟨n, hn⟩ : ∃ n, n = m.nterm - j := ⟨_, rfl⟩
  induction n generalizing m j with
  | zero =>
    exact ⟨1, { m with handler := none }, by omega,
      by rw [List.replicate_one, exec, step_signal_end hj (by omega)]; rfl,
      rfl, rfl, rfl, rfl⟩
  | succ n ih =>
    have hlt : j < m.nterm := by omega
    have hstep := step_signal_lt hj hlt
    obtain ⟨m₁, hm₁⟩ : ∃ m₁, m₁ = { m with
      handler := some (j + 1), rxReady := Function.update m.rxReady j
        (kernelBroadcast (m.rxReady j)) } := ⟨_, rfl⟩
    rw [← hm₁] at hstep
    have hserved : m.Served m₁ := by
      subst hm₁
      exact ⟨rfl, rfl⟩
    have hpending : m₁.pending = m.pending := by rw [hm₁]
    obtain ⟨k, m', hk, he, hnone, hpending', hserved'⟩ :=
      ih (m := m₁) (j := j + 1) (by rw [hm₁]) (by
      rw [hserved.nterm]
      omega)
    rw [hserved.nterm] at hk
    refine ⟨k + 1, m', by omega, ?_, hnone, hpending'.trans hpending, hserved.trans hserved'⟩
    rw [List.replicate_succ, exec, hstep]
    exact he

theorem Terminals.exec_append {es es' : List SerialEvent} {m₁ : Terminals}
    (h : exec Terminals.step m es = some m₁) :
    exec Terminals.step m (es ++ es') = exec Terminals.step m₁ es' := by
  induction es generalizing m with
  | nil =>
    obtain rfl : m = m₁ := by simpa [exec] using h
    rfl
  | cons e es ih =>
    obtain ⟨u, hu, hes⟩ := Option.bind_eq_some_iff.mp h
    simp only [List.cons_append, exec, hu, Option.bind_some]
    exact ih hes

def SerialEvent.serves : SerialEvent → Bool
  | .picRaise | .interrupt .serialRxReady | .signal => true
  | _ => false

/-- A pending interrupt wakes the readers of all terminals once core 0 takes interrupts. -/
theorem Terminals.pending_wakes (hp : m.pending .serialRxReady = true)
    (hmask : m.masked = false) (hi : i < m.nterm) :
    ∃ es m', es.length ≤ 2 * m.nterm + 2 ∧ (∀ e ∈ es, e.serves = true) ∧
    exec Terminals.step m es = some m' ∧
      (m'.rxReady i).waitset = [] := by
  obtain ⟨k, m₁, hk, he, hnone, hpending, hserved⟩ : ∃ k m₁, k ≤ m.nterm + 1 ∧
      exec Terminals.step m (List.replicate k .signal) = some m₁ ∧ m₁.handler = none ∧
        m₁.pending = m.pending ∧ m.Served m₁ := by
    cases hj : m.handler with
    | none => exact ⟨0, m, Nat.zero_le _, rfl, hj, rfl, rfl, rfl⟩
    | some j =>
      obtain ⟨k, m₁, hk, h⟩ := signal_ends hj
      exact ⟨k, m₁, by omega, h⟩
  obtain ⟨m₂, hm₂⟩ : ∃ m₂, m₂ = { m₁ with
    pending := Function.update m₁.pending .serialRxReady false, handler := some 0 } := ⟨_, rfl⟩
  have hstep : m₁.step (.interrupt .serialRxReady) = some m₂ := by
    simp [Terminals.step, stepRet, interrupt, hpending, hp, hserved.masked, hmask, hnone, hm₂]
  obtain ⟨m₃, he₃, hw⟩ := signal_reaches (m := m₂) (j := 0) (by rw [hm₂]) (Nat.zero_le i)
    (by rw [hm₂]; exact hserved.nterm ▸ hi)
  refine ⟨List.replicate k .signal ++ .interrupt .serialRxReady :: List.replicate
    (i + 1 - 0) .signal, m₃, ?_, ?_, ?_, hw⟩
  · simp only [List.length_append, List.length_cons, List.length_replicate]
    omega
  · intro e he
    rcases List.mem_append.mp he with hs | hs
    · rw [List.eq_of_mem_replicate hs]
      rfl
    · rcases List.mem_cons.mp hs with rfl | hs
      · rfl
      · rw [List.eq_of_mem_replicate hs]
        rfl
  · rw [exec_append he, exec, hstep]
    exact he₃

theorem Terminals.Coming.wakes (hc : m.Coming i) (hmask : m.masked = false) (hi : i < m.nterm) :
    ∃ es m', es.length ≤ 2 * m.nterm + 3 ∧ (∀ e ∈ es, e.serves = true) ∧
    exec Terminals.step m es = some m' ∧
      (m'.rxReady i).waitset = [] := by
  rcases hc with hp | ⟨todo, selected, now, hr⟩ | ⟨j, hj, hle⟩
  · obtain ⟨es, m', hlen, h⟩ := pending_wakes hp hmask hi
    exact ⟨es, m', by omega, h⟩
  · obtain ⟨m₁, hm₁⟩ : ∃ m₁, m₁ = { m with
      pending := Function.update m.pending .serialRxReady true, pic :=
        .looking todo selected now } := ⟨_, rfl⟩
    have hstep : m.step .picRaise = some m₁ := by
      simp [Terminals.step, stepRet, picRaise, hr, hm₁, IoDirection.interrupt]
    obtain ⟨es, m', hlen, hall, he, hw⟩ := pending_wakes (m := m₁) (by simp [hm₁])
      (by rw [hm₁]; exact hmask) (by rw [hm₁]; exact hi)
    have hn : m₁.nterm = m.nterm := by rw [hm₁]
    refine ⟨.picRaise :: es, m', ?_, List.forall_mem_cons.mpr ⟨rfl, hall⟩, ?_, hw⟩
    · rw [List.length_cons]
      omega
    · rw [exec, hstep]
      exact he
  · obtain ⟨m', he, hw⟩ := signal_reaches hj hle hi
    refine ⟨_, m', ?_, ?_, he, hw⟩
    · rw [List.length_replicate]
      omega
    · intro e hmem
      rw [List.eq_of_mem_replicate hmem]
      rfl

end Handler

/-- When threads read only on core 0, nobody sleeps on a terminal that the PIC daemon has seen
without an interrupt on its way; and that interrupt, once taken, wakes all of them. -/
theorem sleeping_readers_attended {nterm capacity now i : Nat} {kbd : Nat → List UInt8}
    {m : Terminals}
    (h : Reach Terminals.step ReadersOnCoreZero (Terminals.boot nterm capacity now kbd) m)
    (hi : i < m.nterm) (hw : (m.rxReady i).waitset ≠ []) :
    (m.dev .rx i).ready = false ∨ m.Coming i ∧
    (m.masked = false → ∃ es m', es.length ≤ 2 * m.nterm + 3 ∧
      (∀ e ∈ es, e.serves = true) ∧ exec Terminals.step m es = some m' ∧
      (m'.rxReady i).waitset = []) := by
  have hm : m.Watched := h.invariant (Terminals.watched_boot nterm capacity now kbd)
    fun _ _ _ hu hok hs => hu.step hok hs
  rcases hm.attended i hi (.inl hw) with hr | hc
  · exact .inl hr
  · exact .inr ⟨hc, fun hmask => hc.wakes hmask hi⟩

def SerialEvent.atZero : SerialEvent → Bool
  | .read c .. | .run c _ => c = 0
  | _ => false

theorem SerialEvent.onCoreZero_of_atZero {m : Terminals} {e : SerialEvent} (h : e.atZero = true) :
    ReadersOnCoreZero m e := by
  cases e with
  | read c =>
    show c = 0
    simpa [atZero] using h
  | run c => exact fun _ => by simpa [atZero] using h
  | _ => trivial

/-- Thread 5 sleeps on a terminal that is not ready. -/
theorem sleeping_readers_attended_run :
    ∃ m, Reach Terminals.step ReadersOnCoreZero (Terminals.boot 1 4 0 fun _ => []) m ∧
      (m.rxReady 0).waitset = [5] ∧ ((m.dev .rx 0).ready = false ∨ m.Coming 0) := by
  obtain ⟨m, hm, hp⟩ := exists_reach_of_guarded Terminals.step (fun _ e => e.atZero)
    (Terminals.boot 1 4 0 fun _ => [])
    [.read 0 5 0 3, .run 0 5, .run 0 5, .run 0 5]
    (fun m => decide (m.nterm = 1 ∧ (m.rxReady 0).waitset = [5])) (by decide)
  have hm : Reach Terminals.step ReadersOnCoreZero _ m := hm.mono fun _ _ he =>
    SerialEvent.onCoreZero_of_atZero he
  have hp := of_decide_eq_true hp
  have hattended := sleeping_readers_attended hm (i := 0) (by rw [hp.1]; exact Nat.one_pos)
    (by simp [hp.2])
  exact ⟨m, hm, hp.2, hattended.imp id And.left⟩

/-- Whatever core they run on, and whatever wakeups are lost: once the PIC daemon looks at the
keyboard of terminal `i` when its fifo was selected or the last interrupt is too long ago, those who
sleep there are woken. -/
theorem look_wakes_readers {m m₁ m₂ : Terminals} {i now : Nat} {todo selected : List DeviceNo}
    (hpic : m.pic = .looking ((.rx, i) :: todo) selected now)
    (hdue : (.rx, i) ∈ selected ∨ (m.dev .rx i).overdue now = true)
    (hlook : m.step .picLook = some m₁)
    (hrun : Reach Terminals.step (fun u _ => (u.rxReady i).waitset ≠ []) m₁ m₂) (hi : i < m.nterm)
    (hmask : m₂.masked = false) (hw : (m₂.rxReady i).waitset ≠ []) :
    ∃ es m', es.length ≤ 2 * m.nterm + 3 ∧ (∀ e ∈ es, e.serves = true) ∧
    exec Terminals.step m₂ es = some m' ∧
      (m'.rxReady i).waitset = [] := by
  have hcoming : m₁.Coming i := by
    simp only [Terminals.step, Terminals.stepRet, Terminals.picLook, hpic,
      if_pos hdue, Option.map_some,
      Option.some.injEq] at hlook
    rw [← hlook]
    exact .inr (.inl ⟨todo, selected, now, rfl⟩)
  have hn₁ : m₁.nterm = m.nterm := Terminals.nterm_step hlook
  have hinv : m₂.nterm = m.nterm ∧ ((m₂.rxReady i).waitset = [] ∨ m₂.Coming i) := by
    refine hrun.invariant
      (I := fun u => u.nterm = m.nterm ∧ ((u.rxReady i).waitset = [] ∨ u.Coming i))
      ⟨hn₁, .inr hcoming⟩ fun u e v hu hsleep hs => ⟨(Terminals.nterm_step hs).trans hu.1, ?_⟩
    rcases hu.2 with hnil | hc
    · exact absurd hnil hsleep
    · rcases hc.step (hu.1 ▸ hi) hs with hc | hdone
      · exact .inr hc
      · exact .inl hdone.1
  have hc := hinv.2.resolve_left hw
  rw [← hinv.1]
  exact hc.wakes hmask (hinv.1 ▸ hi)

/-- Thread 5 reads on core 1; core 0 broadcasts before it sleeps. -/
def lostWakeup : List SerialEvent :=
  [.read 1 5 0 3, .run 1 5, .run 1 5, .type 0 [104], .picCollect, .picCollect,
    .picCollect, .picSelect 7, .picLook, .picLook,
    .picRaise, .interrupt .serialRxReady, .signal, .signal, .run 1 5, .picLook,
      .picCollect, .picCollect, .picCollect,
    .picSelect 400000, .picLook, .picRaise]

/-- The wakeup is lost, and the next look repairs it. -/
theorem look_wakes_readers_lost :
    ∃ m, Reach Terminals.step Always (Terminals.boot 1 4 0 fun _ => []) m ∧
    (m.rxReady 0).waitset = [5] ∧
      (m.dev .rx 0).fifo = [104] ∧ (m.dev .rx 0).ready = true ∧ ¬ m.Coming 0 ∧
      ∃ m₁ es m', m.step .picLook = some m₁ ∧ es.length ≤ 5 ∧ exec Terminals.step m₁ es = some m' ∧
        (m'.rxReady 0).waitset = [] := by
  obtain ⟨m, hm, hp⟩ := exists_reach_of_exec Terminals.step
    (Terminals.boot 1 4 0 fun _ => []) lostWakeup
    (fun m => decide (m.pic = .looking [(.rx, 0)] [] 400000 ∧ (m.rxReady 0).waitset = [5] ∧
    (m.dev .rx 0).fifo = [104] ∧
      (m.dev .rx 0).ready = true ∧ m.pending .serialRxReady = false ∧ m.handler = none ∧
      m.nterm = 1 ∧ (m.dev .rx 0).overdue 400000 = true ∧ m.holder = none)) (by decide)
  obtain ⟨hpic, hw, hfifo, hready, hpending, hhandler, hn, hdue, hfree⟩ := of_decide_eq_true hp
  obtain ⟨m₁, hm₁⟩ : ∃ m₁, m.step .picLook = some m₁ := by
    simp [Terminals.step, Terminals.stepRet, Terminals.picLook, hpic, hdue]
  have hsame : m₁.rxReady = m.rxReady ∧ m₁.masked = m.masked := by
    simp only [Terminals.step, Terminals.stepRet, Terminals.picLook, hpic,
      hdue, or_true, if_true, Option.map_some,
      Option.some.injEq] at hm₁
    subst hm₁
    exact ⟨rfl, rfl⟩
  obtain ⟨es, m', hlen, -, he, hnil⟩ := look_wakes_readers hpic (.inr hdue) hm₁ .refl
    (by rw [hn]; exact Nat.one_pos)
    (by rw [hsame.2]; simp [Terminals.masked, hfree])
    (by rw [hsame.1, hw]; exact List.cons_ne_nil _ _)
  refine ⟨m, hm, hw, hfifo, hready, ?_, m₁, es, m', hm₁, by rwa [hn] at hlen, he, hnil⟩
  simp [Terminals.Coming, hpending, hpic, hhandler]

end TinyOS
