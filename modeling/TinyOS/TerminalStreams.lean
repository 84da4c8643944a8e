import TinyOS.SerialDevices

/-! Reading and writing terminals: what is typed arrives once and in order, and so does what is
written, whoever reads and writes and whatever the interrupts do. -/

namespace TinyOS

open Transition

def SerialPc.taken (i : Nat) : SerialPc → List UInt8
  | .reading j _ buf | .unread j _ buf | .starved j _ buf => if j = i then buf else []
  | _ => []

def SerialPc.sent (i : Nat) : SerialPc → List UInt8
  | .writing j buf count | .unwritten j buf count | .refused j buf count =>
    if j = i then buf.take count else []
  | _ => []

def SerialPc.Bounded : SerialPc → Prop
  | .reading _ size buf => buf.length ≤ size
  | .unread _ size buf | .starved _ size buf => buf.length < size
  | .writing _ buf count => count ≤ buf.length
  | .unwritten _ buf count | .refused _ buf count => count < buf.length
  | _ => True

def Terminals.hand (m : Terminals) : SerialPc := m.holder.elim .user fun x => m.pc x.1

structure Terminals.Streams (m : Terminals) : Prop where
  input : ∀ i, m.typed i = m.delivered i ++ m.hand.taken i ++ (m.dev .rx i).fifo
  output : ∀ i, m.written i ++ m.hand.sent i = m.shown i ++ (m.dev .tx i).fifo
  room : ∀ i, (m.dev .tx i).fifo.length ≤ m.capacity
  bounded : m.hand.Bounded

/-- What a call on a terminal returns: the number of bytes it has transferred. -/
def SerialPc.Returns : SerialPc → SerialRet → Prop
  | .reading _ size buf, r | .starved _ size buf, r =>
    r.bytes = buf ∧ r.val = buf.length ∧ r.val ≤ size ∧ (0 < size → 0 < r.val)
  | .writing _ buf count, r | .refused _ buf count, r =>
    r.val = count ∧ r.val ≤ buf.length ∧ (buf ≠ [] → 0 < r.val)
  | _, _ => False

section Frame

variable {m m' : Terminals} {t : ThreadId} {dir : IoDirection} {i j c : Nat} {pc : SerialPc}

theorem Terminals.hand_of_holder (h : m.holder = some (t, c)) : m.hand = m.pc t := by
  simp [Terminals.hand, h]

theorem Terminals.hand_setPc (h : m.holder = some (t, c)) : (m.setPc t pc).hand = pc := by
  simp [Terminals.hand, Terminals.setPc, h]

@[simp] theorem Terminals.hand_setDev (f : IoDevice → IoDevice) :
    (m.setDev dir i f).hand = m.hand := rfl

theorem Terminals.dev_setDev (f : IoDevice → IoDevice) (d : IoDirection) :
    (m.setDev dir i f).dev d j = if d = dir ∧ j = i then f (m.dev dir i) else m.dev d j := by
  by_cases hd : d = dir
  · subst hd
    by_cases hj : j = i
    · subst hj
      simp [Terminals.setDev]
    · simp [Terminals.setDev, hj]
  · simp [Terminals.setDev, hd]

/-- Only flags of devices, interrupts, sleepers and the PIC daemon change. -/
theorem Terminals.Streams.frame (h : m.Streams)
    (hfifo : ∀ d j, (m'.dev d j).fifo = (m.dev d j).fifo)
    (hhand : m'.hand = m.hand) (hcap : m'.capacity = m.capacity) (htyped : m'.typed = m.typed)
    (hdelivered : m'.delivered = m.delivered) (hwritten : m'.written = m.written)
    (hshown : m'.shown = m.shown) :
    m'.Streams where
  input j := by rw [htyped, hdelivered, hhand, hfifo, h.input]
  output j := by rw [hwritten, hshown, hhand, hfifo, h.output]
  room j := by rw [hfifo, hcap]; exact h.room j
  bounded := by rw [hhand]; exact h.bounded

theorem Terminals.fifo_setDev {f : IoDevice → IoDevice} (hf : ∀ d, (f d).fifo = d.fifo)
    (d : IoDirection) :
    ((m.setDev dir i f).dev d j).fifo = (m.dev d j).fifo := by
  rw [dev_setDev]
  split
  · rename_i he
    rw [hf, he.1, he.2]
  · rfl

theorem Terminals.fifo_mark (dir : IoDirection) (i : Nat) (d : IoDirection) (j : Nat) :
    ((m.mark dir i).dev d j).fifo = (m.dev d j).fifo := by
  rw [mark, fifo_setDev]
  exact fun _ => rfl

end Frame

section Steps

variable {m m' : Terminals} {t : ThreadId} {i j c size count : Nat} {pc : SerialPc}
  {buf : List UInt8} {ret : Option SerialRet} {e : SerialEvent}

/-- The thread that has the kernel goes from `pc` to `pc'` without a transfer. -/
theorem Terminals.Streams.move {pc' : SerialPc} (h : m.Streams) (hh : m.holder = some (t, c))
    (hpc : m.pc t = pc)
    (htaken : ∀ i, pc'.taken i = pc.taken i) (hsent : ∀ i, pc'.sent i = pc.sent i)
    (hb : pc'.Bounded) :
    (m.setPc t pc').Streams := by
  have hold := hand_of_holder hh
  have hnew : (m.setPc t pc').hand = pc' := hand_setPc hh
  rw [hpc] at hold
  refine ⟨fun j => ?_, fun j => ?_, h.room, by rw [hnew]; exact hb⟩
  · rw [hnew, htaken, ← hold]
    exact h.input j
  · rw [hnew, hsent, ← hold]
    exact h.output j

theorem Terminals.Streams.marked (h : m.Streams) (dir : IoDirection)
    (i : Nat) : (m.mark dir i).Streams :=
  h.frame (fifo_mark dir i) rfl rfl rfl rfl rfl rfl

theorem Terminals.Streams.readByte (h : m.Streams) (hh : m.holder = some (t, c))
    (hpc : m.pc t = .reading i size buf) (hlt : buf.length < size) :
    (m.readByte t i size buf).Streams := by
  unfold Terminals.readByte
  split
  · exact h.move hh hpc (fun _ => rfl) (fun _ => rfl) hlt
  · rename_i b rest hfifo
    have hold := hand_of_holder hh
    rw [hpc] at hold
    have hnew :
        ((m.setDev .rx i fun d => { d with fifo := rest }).setPc t
          (.reading i size (buf ++ [b]))).hand =
        .reading i size (buf ++ [b]) := hand_setPc (m := m.setDev .rx i _) hh
    refine ⟨fun j => ?_, fun j => ?_, fun j => ?_, ?_⟩
    · have hin := h.input j
      rw [hold] at hin
      rw [hnew]
      show m.typed j = m.delivered j ++ _ ++
        ((m.setDev .rx i fun d => { d with fifo := rest }).dev .rx j).fifo
      rw [hin, dev_setDev]
      by_cases hj : j = i
      · subst hj
        simp [SerialPc.taken, hfifo]
      · simp [SerialPc.taken, hj, Ne.symm hj]
    · have hout := h.output j
      rw [hold] at hout
      rw [hnew]
      show m.written j ++ _ =
        m.shown j ++ ((m.setDev .rx i fun d => { d with fifo := rest }).dev .tx j).fifo
      rw [dev_setDev]
      simpa [SerialPc.sent] using hout
    · show ((m.setDev .rx i fun d => { d with fifo := rest }).dev .tx j).fifo.length ≤ m.capacity
      rw [dev_setDev]
      simpa using h.room j
    · rw [hnew]
      show (buf ++ [b]).length ≤ size
      rw [List.length_append]
      exact hlt

theorem Terminals.Streams.writeByte {b : UInt8} (h : m.Streams) (hh : m.holder = some (t, c))
    (hpc : m.pc t = .writing i buf count) (hb : buf[count]? = some b) :
    (m.writeByte t i buf count b).Streams := by
  obtain ⟨hlt, hget⟩ := List.getElem?_eq_some_iff.mp hb
  unfold Terminals.writeByte
  split
  · rename_i hroom
    have hold := hand_of_holder hh
    rw [hpc] at hold
    have hnew :
        ((m.setDev .tx i fun d => { d with fifo := d.fifo ++ [b] }).setPc t
          (.writing i buf (count + 1))).hand =
        .writing i buf (count + 1) := hand_setPc (m := m.setDev .tx i _) hh
    refine ⟨fun j => ?_, fun j => ?_, fun j => ?_, by rw [hnew]; exact hlt⟩
    · have hin := h.input j
      rw [hold] at hin
      rw [hnew]
      show m.typed j = m.delivered j ++ _ ++
        ((m.setDev .tx i fun d => { d with fifo := d.fifo ++ [b] }).dev .rx j).fifo
      rw [dev_setDev]
      simpa [SerialPc.taken] using hin
    · have hout := h.output j
      rw [hold] at hout
      rw [hnew]
      show m.written j ++ _ =
        m.shown j ++ ((m.setDev .tx i fun d => { d with fifo := d.fifo ++ [b] }).dev .tx j).fifo
      rw [dev_setDev]
      by_cases hj : j = i
      · subst hj
        have htake : buf.take (count + 1) = buf.take count ++ [b] := by
          rw [List.take_add_one, hb]
          rfl
        simp only [SerialPc.sent, if_true] at hout
        simp [SerialPc.sent, htake, ← List.append_assoc, hout]
      · simpa [SerialPc.sent, hj, Ne.symm hj] using hout
    · show ((m.setDev .tx i fun d => { d with fifo := d.fifo ++ [b] }).dev .tx j).fifo.length ≤
        m.capacity
      rw [dev_setDev]
      by_cases hj : j = i
      · subst hj
        rw [if_pos ⟨rfl, rfl⟩, List.length_append]
        exact hroom
      · simpa [hj] using h.room j
  · exact h.move hh hpc (fun _ => rfl) (fun _ => rfl) hlt

theorem Terminals.Streams.readDone (h : m.Streams) (hh : m.holder = some (t, c))
    (htaken : ∀ j, (m.pc t).taken j = if i = j then buf else [])
    (hsent : ∀ j, (m.pc t).sent j = []) :
    (m.readDone t i buf).1.Streams := by
  have hold := hand_of_holder hh
  refine ⟨fun j => ?_, fun j => ?_, h.room, trivial⟩
  · have hin := h.input j
    rw [hold, htaken] at hin
    show m.typed j = Function.update m.delivered i (m.delivered i ++ buf) j ++
      [] ++ (m.dev .rx j).fifo
    rw [hin]
    by_cases hj : j = i
    · subst hj
      simp
    · simp [hj, Ne.symm hj]
  · have hout := h.output j
    rw [hold, hsent] at hout
    exact hout

theorem Terminals.Streams.writeDone (h : m.Streams) (hh : m.holder = some (t, c))
    (htaken : ∀ j, (m.pc t).taken j = [])
    (hsent : ∀ j, (m.pc t).sent j = if i = j then buf.take count else []) :
    (m.writeDone t i buf count).1.Streams := by
  have hold := hand_of_holder hh
  refine ⟨fun j => ?_, fun j => ?_, h.room, trivial⟩
  · have hin := h.input j
    rw [hold, htaken] at hin
    exact hin
  · have hout := h.output j
    rw [hold, hsent] at hout
    show Function.update m.written i (m.written i ++ buf.take count) j ++ [] =
      m.shown j ++ (m.dev .tx j).fifo
    rw [← hout]
    by_cases hj : j = i
    · subst hj
      simp
    · simp [hj, Ne.symm hj]

theorem Terminals.Streams.wait (h : m.Streams) (hh : m.holder = some (t, c))
    (hpc : m.pc t = .starved i size []) :
    (m.wait t i size).Streams := by
  have hold := hand_of_holder hh
  rw [hpc] at hold
  refine ⟨fun j => ?_, fun j => ?_, h.room, trivial⟩
  · have hin := h.input j
    rw [hold] at hin
    simpa [SerialPc.taken, Terminals.wait, Terminals.hand, Terminals.setPc] using hin
  · have hout := h.output j
    rw [hold] at hout
    simpa [SerialPc.sent, Terminals.wait, Terminals.hand, Terminals.setPc] using hout

theorem Terminals.Streams.inKernel (h : m.Streams) (hh : m.holder = some (t, c)) (hpc : m.pc t = pc)
    (hs : m.inKernel t pc = some (m', ret)) : m'.Streams ∧ ∀ r, ret = some r → pc.Returns r := by
  have hbound : pc.Bounded := by
    rw [← hpc, ← hand_of_holder hh]
    exact h.bounded
  cases pc with
  | reading i size buf =>
    simp only [Terminals.inKernel] at hs
    split at hs
    · rename_i hlt
      obtain ⟨rfl, rfl⟩ : m.readByte t i size buf = m' ∧ none = ret := by simpa using hs
      exact ⟨h.readByte hh hpc hlt, by simp⟩
    · rename_i hge
      obtain ⟨rfl, rfl⟩ := Prod.mk.inj (Option.some.inj hs)
      refine ⟨h.readDone hh (fun j => by rw [hpc]; rfl) (fun j => by rw [hpc]; rfl), ?_⟩
      rintro r ⟨⟩
      exact ⟨rfl, rfl, hbound, fun hpos => Nat.lt_of_lt_of_le hpos (Nat.le_of_not_lt hge)⟩
  | unread i size buf =>
    obtain ⟨rfl, rfl⟩ : (m.mark .rx i).setPc t (.starved i size buf) = m' ∧ none = ret := by
      simpa [Terminals.inKernel] using hs
    exact ⟨(h.marked .rx i).move (m := m.mark .rx i) hh hpc (fun _ => rfl) (fun _ => rfl) hbound,
      by simp⟩
  | starved i size buf =>
    simp only [Terminals.inKernel] at hs
    split at hs
    · rename_i hnil
      subst hnil
      obtain ⟨rfl, rfl⟩ : m.wait t i size = m' ∧ none = ret := by simpa using hs
      exact ⟨h.wait hh hpc, by simp⟩
    · rename_i hne
      obtain ⟨rfl, rfl⟩ := Prod.mk.inj (Option.some.inj hs)
      refine ⟨h.readDone hh (fun j => by rw [hpc]; rfl) (fun j => by rw [hpc]; rfl), ?_⟩
      rintro r ⟨⟩
      exact ⟨rfl, rfl, Nat.le_of_lt hbound, fun _ => List.length_pos_iff.mpr hne⟩
  | writing i buf count =>
    simp only [Terminals.inKernel] at hs
    split at hs
    · rename_i b hb
      obtain ⟨rfl, rfl⟩ : m.writeByte t i buf count b = m' ∧ none = ret := by simpa using hs
      exact ⟨h.writeByte hh hpc hb, by simp⟩
    · rename_i hend
      obtain ⟨rfl, rfl⟩ := Prod.mk.inj (Option.some.inj hs)
      refine ⟨h.writeDone hh (fun j => by rw [hpc]; rfl) (fun j => by rw [hpc]; rfl), ?_⟩
      rintro r ⟨⟩
      have hge := List.getElem?_eq_none_iff.mp hend
      exact ⟨rfl, hbound, fun hne => Nat.lt_of_lt_of_le (List.length_pos_iff.mpr hne) hge⟩
  | unwritten i buf count =>
    obtain ⟨rfl, rfl⟩ : (m.mark .tx i).setPc t (.refused i buf count) = m' ∧ none = ret := by
      simpa [Terminals.inKernel] using hs
    exact ⟨(h.marked .tx i).move (m := m.mark .tx i) hh hpc (fun _ => rfl) (fun _ => rfl) hbound,
      by simp⟩
  | refused i buf count =>
    simp only [Terminals.inKernel] at hs
    split at hs
    · obtain ⟨rfl, rfl⟩ : m.setPc t (.writing i buf count) = m' ∧ none = ret := by simpa using hs
      exact ⟨h.move hh hpc (fun _ => rfl) (fun _ => rfl) (Nat.le_of_lt hbound), by simp⟩
    · rename_i hne
      obtain ⟨rfl, rfl⟩ := Prod.mk.inj (Option.some.inj hs)
      refine ⟨h.writeDone hh (fun j => by rw [hpc]; rfl) (fun j => by rw [hpc]; rfl), ?_⟩
      rintro r ⟨⟩
      exact ⟨rfl, Nat.le_of_lt hbound, fun _ => Nat.pos_of_ne_zero hne⟩
  | user | asleep => simp [Terminals.inKernel] at hs

theorem Terminals.Streams.run (h : m.Streams) (hs : m.run c t = some (m', ret)) :
    m'.Streams ∧ ∀ r, ret = some r → (m.pc t).Returns r := by
  unfold Terminals.run at hs
  split at hs
  · rename_i u d hh
    split at hs
    · rename_i hok
      obtain ⟨rfl, -⟩ := hok
      have hsame : ({ m with holder := some (u, c) } : Terminals).Streams :=
        h.frame (fun _ _ => rfl) (by simp [Terminals.hand, hh]) rfl rfl rfl rfl rfl
      exact hsame.inKernel rfl rfl hs
    · simp at hs
  · rename_i hh
    have hold : m.hand = .user := by simp [Terminals.hand, hh]
    split at hs
    · rename_i i size hpc
      split at hs
      · simp at hs
      · obtain ⟨rfl, rfl⟩ : { m.setPc t (.reading i size []) with holder := some (t, c) } = m' ∧
          none = ret := by
          simpa using hs
        have hnew :
            ({ m.setPc t (.reading i size []) with holder := some (t, c) } : Terminals).hand =
            .reading i size [] := by simp [Terminals.hand, Terminals.setPc]
        refine ⟨⟨fun j => ?_, fun j => ?_, h.room, by rw [hnew]; exact Nat.zero_le _⟩, by simp⟩
        · have hin := h.input j
          rw [hold] at hin
          rw [hnew]
          show m.typed j = m.delivered j ++ SerialPc.taken j (.reading i size []) ++
            (m.dev .rx j).fifo
          simpa [SerialPc.taken] using hin
        · have hout := h.output j
          rw [hold] at hout
          rw [hnew]
          exact hout
    · simp at hs

theorem Terminals.Streams.enter (h : m.Streams) (htaken : ∀ j, pc.taken j = [])
    (hsent : ∀ j, pc.sent j = [])
    (hb : pc.Bounded) (hs : m.enter c t i pc = some m') : m'.Streams := by
  unfold Terminals.enter at hs
  split at hs
  · rename_i hok
    obtain rfl := Option.some.inj hs
    have hold : m.hand = .user := by simp [Terminals.hand, hok.1]
    have hnew : ({ m.setPc t pc with holder := some (t, c) } : Terminals).hand = pc := by
      simp [Terminals.hand, Terminals.setPc]
    refine ⟨fun j => ?_, fun j => ?_, h.room, by rw [hnew]; exact hb⟩
    · have hin := h.input j
      rw [hold] at hin
      rw [hnew, htaken]
      exact hin
    · have hout := h.output j
      rw [hold] at hout
      rw [hnew, hsent]
      exact hout
  · simp at hs

theorem Terminals.Streams.pic (h : m.Streams)
    (hs : m.picCollect = some m' ∨ (∃ now, m.picSelect now = some m') ∨
      m.picLook = some m' ∨ m.picRaise = some m') :
    m'.Streams := by
  rcases hs with hs | ⟨now, hs⟩ | hs | hs
  · unfold Terminals.picCollect at hs
    split at hs <;> simp only [Option.some.injEq, reduceCtorEq] at hs <;> subst hs <;>
      exact h.frame (fun _ _ => rfl) rfl rfl rfl rfl rfl rfl
  · unfold Terminals.picSelect at hs
    split at hs <;> simp only [Option.some.injEq, reduceCtorEq] at hs
    subst hs
    exact h.frame (fun _ _ => rfl) rfl rfl rfl rfl rfl rfl
  · unfold Terminals.picLook at hs
    split at hs
    · split at hs <;> simp only [Option.some.injEq] at hs <;> subst hs
      · refine h.frame (fun d j => ?_) rfl rfl rfl rfl rfl rfl
        exact fifo_setDev
          (fun d : IoDevice =>
            (rfl : ({ d with ready := true, lastInt := _ } : IoDevice).fifo = d.fifo)) d
      · exact h.frame (fun _ _ => rfl) rfl rfl rfl rfl rfl rfl
    · simp only [Option.some.injEq] at hs
      subst hs
      exact h.frame (fun _ _ => rfl) rfl rfl rfl rfl rfl rfl
    · simp at hs
  · unfold Terminals.picRaise at hs
    split at hs <;> simp only [Option.some.injEq, reduceCtorEq] at hs
    subst hs
    exact h.frame (fun _ _ => rfl) rfl rfl rfl rfl rfl rfl

/-- The terminal types, or takes what has been written. -/
theorem Terminals.Streams.operate (h : m.Streams) (i : Nat) (bytes : List UInt8) (n : Nat) :
    ({ m.setDev .rx i (fun d => { d with fifo := d.fifo ++ bytes }) with
      typed := Function.update m.typed i (m.typed i ++ bytes) } : Terminals).Streams ∧
    ({ m.setDev .tx i (fun d => { d with fifo := d.fifo.drop n }) with
      shown := Function.update m.shown i (m.shown i ++ (m.dev .tx i).fifo.take n) } :
        Terminals).Streams := by
  constructor
  · refine ⟨fun j => ?_, fun j => ?_, fun j => ?_, h.bounded⟩
    · show Function.update m.typed i (m.typed i ++ bytes) j = m.delivered j ++ m.hand.taken j ++
        ((m.setDev .rx i fun d => { d with fifo := d.fifo ++ bytes }).dev .rx j).fifo
      rw [dev_setDev]
      by_cases hj : j = i
      · subst hj
        simp [h.input j]
      · simpa [hj] using h.input j
    · show m.written j ++ m.hand.sent j = m.shown j ++
        ((m.setDev .rx i fun d => { d with fifo := d.fifo ++ bytes }).dev .tx j).fifo
      rw [dev_setDev]
      simpa using h.output j
    · show ((m.setDev .rx i fun d => { d with fifo := d.fifo ++ bytes }).dev .tx j).fifo.length ≤
        m.capacity
      rw [dev_setDev]
      simpa using h.room j
  · refine ⟨fun j => ?_, fun j => ?_, fun j => ?_, h.bounded⟩
    · show m.typed j = m.delivered j ++ m.hand.taken j ++
        ((m.setDev .tx i fun d => { d with fifo := d.fifo.drop n }).dev .rx j).fifo
      rw [dev_setDev]
      simpa using h.input j
    · show m.written j ++ m.hand.sent j =
        Function.update m.shown i (m.shown i ++ (m.dev .tx i).fifo.take n) j ++
        ((m.setDev .tx i fun d => { d with fifo := d.fifo.drop n }).dev .tx j).fifo
      rw [dev_setDev]
      by_cases hj : j = i
      · subst hj
        simp [h.output j]
      · simpa [hj] using h.output j
    · show ((m.setDev .tx i fun d => { d with fifo := d.fifo.drop n }).dev .tx j).fifo.length ≤
        m.capacity
      rw [dev_setDev]
      by_cases hj : j = i
      · subst hj
        rw [if_pos ⟨rfl, rfl⟩, List.length_drop]
        exact Nat.le_trans (Nat.sub_le _ _) (h.room j)
      · simpa [hj] using h.room j

theorem Terminals.Streams.step (h : m.Streams) (hs : m.step e = some m') : m'.Streams := by
  obtain ⟨⟨m₁, ret⟩, hret, rfl⟩ := Option.map_eq_some_iff.mp hs
  clear hs
  cases e with
  | type i bytes =>
    obtain ⟨rfl, -⟩ := Prod.mk.inj (Option.some.inj hret)
    exact (h.operate i bytes 0).1
  | display i n =>
    obtain ⟨rfl, -⟩ := Prod.mk.inj (Option.some.inj hret)
    exact (h.operate i [] n).2
  | read c t i size =>
    simp only [Terminals.stepRet, Option.ite_none_right_eq_some, Option.map_eq_some_iff,
      Prod.mk.injEq] at hret
    obtain ⟨-, _, hs, rfl, -⟩ := hret
    exact h.enter (fun j => by simp [SerialPc.taken]) (fun _ => rfl) (Nat.zero_le _) hs
  | write c t i buf =>
    simp only [Terminals.stepRet, Option.ite_none_right_eq_some, Option.map_eq_some_iff,
      Prod.mk.injEq] at hret
    obtain ⟨-, _, hs, rfl, -⟩ := hret
    exact h.enter (fun _ => rfl) (fun j => by simp [SerialPc.sent]) (Nat.zero_le _) hs
  | run c t =>
    simp only [Terminals.stepRet, Option.ite_none_right_eq_some] at hret
    exact (h.run hret.2).1
  | picCollect =>
    simp only [Terminals.stepRet, Option.map_eq_some_iff, Prod.mk.injEq] at hret
    obtain ⟨_, hs, rfl, -⟩ := hret
    exact h.pic (.inl hs)
  | picSelect now =>
    simp only [Terminals.stepRet, Option.map_eq_some_iff, Prod.mk.injEq] at hret
    obtain ⟨_, hs, rfl, -⟩ := hret
    exact h.pic (.inr (.inl ⟨now, hs⟩))
  | picFails =>
    simp only [Terminals.stepRet] at hret
    split at hret
    · obtain ⟨rfl, -⟩ := Prod.mk.inj (Option.some.inj hret)
      exact h.frame (fun _ _ => rfl) rfl rfl rfl rfl rfl rfl
    · simp at hret
  | picLook =>
    simp only [Terminals.stepRet, Option.map_eq_some_iff, Prod.mk.injEq] at hret
    obtain ⟨_, hs, rfl, -⟩ := hret
    exact h.pic (.inr (.inr (.inl hs)))
  | picRaise =>
    simp only [Terminals.stepRet, Option.map_eq_some_iff, Prod.mk.injEq] at hret
    obtain ⟨_, hs, rfl, -⟩ := hret
    exact h.pic (.inr (.inr (.inr hs)))
  | interrupt intno =>
    simp only [Terminals.stepRet, Option.map_eq_some_iff, Prod.mk.injEq] at hret
    obtain ⟨_, hs, rfl, -⟩ := hret
    unfold Terminals.interrupt at hs
    split at hs <;> simp only [Option.some.injEq, reduceCtorEq] at hs
    subst hs
    exact h.frame (fun _ _ => rfl) rfl rfl rfl rfl rfl rfl
  | signal =>
    simp only [Terminals.stepRet, Option.map_eq_some_iff, Prod.mk.injEq] at hret
    obtain ⟨_, hs, rfl, -⟩ := hret
    unfold Terminals.signal at hs
    split at hs
    · simp at hs
    · split at hs <;> simp only [Option.some.injEq] at hs <;> subst hs <;>
        exact h.frame (fun _ _ => rfl) rfl rfl rfl rfl rfl rfl

theorem Terminals.streams_boot (nterm capacity now : Nat) (kbd : Nat → List UInt8) :
    (boot nterm capacity now kbd).Streams where
  input _ := rfl
  output _ := rfl
  room _ := Nat.zero_le _
  bounded := trivial

end Steps

/-- Bytes typed reach the readers once and in order, bytes accepted from the writers reach the
terminal once and in order, nothing else is in flight when the kernel is free, and a call returns as
it should. -/
theorem terminal_lossless {nterm capacity now : Nat} {kbd : Nat → List UInt8} {m : Terminals}
    (h : Reach Terminals.step Always (Terminals.boot nterm capacity now kbd) m) :
    (∀ i, m.delivered i <+: m.typed i ∧ m.shown i <+: m.written i ++ m.hand.sent i) ∧
    (m.holder = none → ∀ i, m.typed i = m.delivered i ++ (m.dev .rx i).fifo ∧
      m.written i = m.shown i ++ (m.dev .tx i).fifo) ∧
    ∀ c t m' r, m.stepRet (.run c t) = some (m', some r) → (m.pc t).Returns r := by
  have hm : m.Streams := h.invariant (Terminals.streams_boot nterm capacity now kbd)
    fun _ _ _ hu _ hs => hu.step hs
  refine ⟨fun i => ⟨?_, ?_⟩, fun hfree i => ⟨?_, ?_⟩, fun c t m' r hs => ?_⟩
  · rw [hm.input i, List.append_assoc]
    exact List.prefix_append _ _
  · rw [hm.output i]
    exact List.prefix_append _ _
  · have hin := hm.input i
    have hold : m.hand = .user := by simp [Terminals.hand, hfree]
    rw [hold] at hin
    simpa [SerialPc.taken] using hin
  · have hout := hm.output i
    have hold : m.hand = .user := by simp [Terminals.hand, hfree]
    rw [hold] at hout
    simpa [SerialPc.sent] using hout
  · simp only [Terminals.stepRet, Option.ite_none_right_eq_some] at hs
    exact (hm.run hs.2).2 r rfl

/-- Thread 5 reads the terminal, sleeps, is woken by the interrupt, and gets what was typed. -/
def terminalRun : List SerialEvent :=
  [.read 0 5 0 3, .run 0 5, .run 0 5, .run 0 5, .type 0 [104, 105], .picCollect,
    .picCollect, .picCollect, .picSelect 7,
    .picLook, .picLook, .picRaise, .interrupt .serialRxReady, .signal,
      .signal, .run 1 5, .run 1 5, .run 1 5, .run 1 5,
    .run 1 5, .run 1 5]

theorem terminal_lossless_run :
    ∃ m, Reach Terminals.step Always (Terminals.boot 1 4 0 fun _ => []) m ∧
      (m.delivered 0 = [104, 105] ∧ m.holder = none) ∧
      m.typed 0 = m.delivered 0 ++ (m.dev .rx 0).fifo := by
  obtain ⟨m, hm, hp⟩ := exists_reach_of_exec Terminals.step
    (Terminals.boot 1 4 0 fun _ => []) terminalRun
    (fun m => decide (m.delivered 0 = [104, 105] ∧ m.holder = none)) (by decide)
  have hp := of_decide_eq_true hp
  exact ⟨m, hm, hp, ((terminal_lossless hm).2.1 hp.2 0).1⟩

end TinyOS
