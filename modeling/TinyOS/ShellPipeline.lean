import TinyOS.IoEffects
import TinyOS.ProcessLine

/-! The calls of `process_line` succeed, and what its children hold. -/

namespace TinyOS

open Transition

section Calls

variable {k k' : IoKernel} {p q child : Pid} {i j : Nat} {f g : FcbId}

/-- Another slot than slot `i` of `p` leads to the same FCB. -/
def IoKernel.HeldElsewhere (k : IoKernel) (p : Pid) (i : Nat) : Prop :=
  ∃ q j, j < maxFileid ∧ (q ≠ p ∨ j ≠ i) ∧ (k.procs q).fidt j = (k.procs p).fidt i

theorem two_refs (h : k.Counted none) (hi : i < maxFileid) (hf : (k.procs p).fidt i = some f)
    (hheld : k.HeldElsewhere p i) : 2 ≤ (k.files.ft f).refcount := by
  obtain ⟨q, j, hj, hne, hsame⟩ := hheld
  obtain ⟨hv, hfree⟩ := inUse_of_slot h hi hf
  have hcount := h.exact.count_eq f hv hfree
  have hrefs := refs_setFidt (k := k) (p := p) (x := none) hi f
  have hother : ((k.setFidt p i none).procs q).fidt j = some f := by
    rw [← hf, ← hsame]
    by_cases hq : q = p
    · subst hq
      rw [fidt_setFidt, Function.update_of_ne (hne.resolve_left (· rfl))]
    · rw [procs_setFidt_ne _ _ _ hq]
  have hpos := refs_pos_of_slot hj hother
  simp [hf] at hrefs hcount
  omega

theorem decref_runs (hcount : 2 ≤ (k.files.ft f).refcount) (p : Pid) :
    ∃ k', k.decref p f = some (k', 0) ∧ k'.procs = k.procs ∧
    k'.files.fcbFreelist = k.files.fcbFreelist := by
  have hne : (k.files.ft f).refcount - 1 ≠ 0 := by omega
  have hdec : fcbDecref k.files f =
      (k.files.setRefcount f ((k.files.ft f).refcount - 1), none) := by
    simp [fcbDecref, hne]
  exact ⟨{ k with files := k.files.setRefcount f ((k.files.ft f).refcount - 1) },
    by simp [IoKernel.decref, hdec], rfl, rfl⟩

def IoResult.Runs (res : IoResult) (P : IoKernel → IoRet → Prop) : Prop :=
  ∃ k' ret, res.result = some (k', ret) ∧ k'.Counted none ∧ P k' ret

theorem IoResult.Runs.intro {res : IoResult} {P : IoKernel → IoRet → Prop}
    {ret : IoRet} (hres : res = some (k', some ret))
    (hall : res.All AllCounted) (hP : P k' ret) : res.Runs P :=
  ⟨k', ret, by rw [hres]; rfl, hall k' _ hres, hP⟩

theorem sysDup2_eq (hi : i < maxFileid) (hj : j < maxFileid) (hf : (k.procs p).fidt i = some f)
    (hg : (k.procs p).fidt j = some g) : sysDup2 k p i j = if getFcb k p j = some f then
      k.ret 0 else
      (k.decref p g).bind fun (k, _) => ((k.incref f).setFidt p j (some f)).ret 0 := by
  unfold sysDup2
  rw [if_neg (by omega), getFcb_nat hi, hf]
  simp only [getFcb_nat hj, hg, Int.toNat_natCast]

theorem sysClose_eq (hi : i < maxFileid) (hf : (k.procs p).fidt i = some f) :
    sysClose k p i = ((k.setFidt p i none).decref p f).bind fun (k, v) => k.ret v := by
  unfold sysClose
  simp only [getFcb_nat hi, hf, Int.toNat_natCast]

theorem dup2_runs (h : k.Counted none) (hp : (k.procs p).pstate = .alive)
    (hi : i < maxFileid) (hj : j < maxFileid)
    (hf : (k.procs p).fidt i = some f) (hg : (k.procs p).fidt j ≠ none)
    (hheld : k.HeldElsewhere p j) :
    (sysDup2 k p i j).Runs fun k' _ => k'.files.fcbFreelist = k.files.fcbFreelist := by
  obtain ⟨g, hg⟩ := Option.ne_none_iff_exists'.mp hg
  have hall := h.dup2 hp i j
  have hdup := sysDup2_eq hi hj hf hg
  by_cases hsame : getFcb k p j = some f
  · rw [if_pos hsame] at hdup
    exact .intro hdup hall rfl
  · obtain ⟨k₁, hd, -, hfree⟩ := decref_runs (two_refs h hj hg hheld) p
    rw [if_neg hsame, hd] at hdup
    exact .intro hdup hall hfree

theorem close_runs (h : k.Counted none) (hp : (k.procs p).pstate = .alive) (hi : i < maxFileid)
    (hf : (k.procs p).fidt i ≠ none) (hheld : k.HeldElsewhere p i) :
    (sysClose k p i).Runs fun k' _ => k'.files.fcbFreelist = k.files.fcbFreelist := by
  obtain ⟨f, hf⟩ := Option.ne_none_iff_exists'.mp hf
  have hclose := sysClose_eq hi hf
  have hcount := two_refs h hi hf hheld
  change 2 ≤ ((k.setFidt p i none).files.ft f).refcount at hcount
  obtain ⟨k₁, hd, -, hfree⟩ := decref_runs hcount p
  rw [hd] at hclose
  exact .intro hclose (h.close hp i) hfree

theorem moveFid_runs (h : k.Counted none) (hp : (k.procs p).pstate = .alive)
    (hi : i < maxFileid) (hj : j < maxFileid)
    (hij : i ≠ j) (hf : (k.procs p).fidt i ≠ none) (hg : (k.procs p).fidt j ≠ none)
    (hheld : k.HeldElsewhere p j) :
    ∃ k', moveFid k p i j = some k' ∧ k'.Counted none ∧ k'.files.fcbFreelist =
    k.files.fcbFreelist := by
  obtain ⟨f, hf⟩ := Option.ne_none_iff_exists'.mp hf
  obtain ⟨k₁, r, hdup, h₁, hfree₁⟩ := dup2_runs h hp hi hj hf hg hheld
  have hp₁ := dup2_procs hi hj hf hdup
  have hfi : (k₁.procs p).fidt i = some f := by
    rw [hp₁, fidt_setFidt, Function.update_of_ne hij, hf]
  have hfj : (k₁.procs p).fidt j = some f := by
    rw [hp₁, fidt_setFidt, Function.update_self]
  obtain ⟨k₂, r', hclose, h₂, hfree₂⟩ := close_runs h₁ (by rw [hp₁, pstate_setFidt]; exact hp) hi
    (by rw [hfi]; simp)
    ⟨p, j, hj, .inr hij.symm, by rw [hfi, hfj]⟩
  refine ⟨k₂, ?_, h₂, hfree₂.trans hfree₁⟩
  unfold moveFid
  rw [hdup]
  show ((sysClose k₁ p i).result.map Prod.fst) = _
  rw [hclose]
  rfl

theorem inheritStreams_freelist (files : FileTable) (fidt : Nat → Option FcbId) :
    (inheritStreams files fidt).fcbFreelist = files.fcbFreelist := by
  unfold inheritStreams
  generalize List.range maxFileid = l
  induction l generalizing files with
  | nil => rfl
  | cons i l ih =>
    rw [List.foldl_cons, ih]
    cases fidt i <;> rfl

theorem execute_runs (h : k.Counted none) (hp : (k.procs p).pstate = .alive)
    (hfree : (k.procs child).pstate = .free)
    (hchild : 2 ≤ child.val) : ∃ k', executeChild k p child = some k' ∧ k'.Counted none ∧
      k'.files.fcbFreelist = k.files.fcbFreelist := by
  obtain ⟨k₁, r, hexec, hlist⟩ : ∃ k₁ r, ioExec k p child true = some (k₁, some r) ∧
      k₁.files.fcbFreelist = k.files.fcbFreelist := by
    unfold ioExec
    simp only [if_neg (show ¬child.val ≤ 1 by omega), if_true]
    exact ⟨_, _, rfl, inheritStreams_freelist _ _⟩
  refine ⟨k₁, ?_, h.exec hp hfree true k₁ _ hexec, hlist⟩
  rw [executeChild, if_pos hfree, hexec]
  rfl

theorem pipe_runs (h : k.Counted none) (hp : (k.procs p).pstate = .alive) (garbage : Nat → UInt8)
    (hi : i < maxFileid) (hj : j < maxFileid) (hij : i ≠ j) (hfi : (k.procs p).fidt i = none)
    (hfj : (k.procs p).fidt j = none) (hfcbs : 2 ≤ k.files.fcbFreelist.length) :
    (sysPipe k p garbage).Runs fun k' ret => (∃ bytes read write, ret = ⟨0, bytes, [read, write]⟩) ∧
      k'.files.fcbFreelist.length + 2 = k.files.fcbFreelist.length := by
  have hall := h.pipe hp garbage
  have hres := reserve_spec k p
  unfold sysPipe at hall ⊢
  generalize k.reserve p = res at hres hall ⊢
  cases hres with
  | full hfull => exact absurd hfi (hfull i hi)
  | exhausted _ hnil => simp [hnil] at hfcbs
  | grabbed i₁ f rest hf =>
    have hfids : ((k.grab p i₁ f rest).procs p).fidt =
        Function.update (k.procs p).fidt i₁ (some f) :=
      fidt_setFidt k p i₁ (some f)
    have hlist : (k.grab p i₁ f rest).files.fcbFreelist = rest := rfl
    have hlength := congrArg List.length hf.free
    simp only at hall ⊢
    have hres := reserve_spec (k.grab p i₁ f rest) p
    generalize k.grab p i₁ f rest = k₁ at hres hall hfids hlist ⊢
    generalize k₁.reserve p = res at hres hall ⊢
    cases hres with
    | full hfull =>
      exfalso
      by_cases hi₁ : i = i₁
      · refine hfull j hj ?_
        rw [hfids, Function.update_of_ne (by omega), hfj]
      · refine hfull i hi ?_
        rw [hfids, Function.update_of_ne hi₁, hfi]
    | exhausted _ hnil =>
      rw [hlist] at hnil
      simp [hnil] at hlength
      omega
    | grabbed j₁ g rest' hg =>
      refine .intro rfl hall ⟨⟨_, i₁, j₁, rfl⟩, ?_⟩
      have hrest := hlist.symm.trans hg.free
      have hrest := congrArg List.length hrest
      show rest'.length + 2 = _
      simp only [List.length_cons] at hrest hlength
      omega

theorem savefid_runs (h : k.Counted none) (hp : (k.procs p).pstate = .alive) (hi : i < maxFileid)
    (hf : (k.procs p).fidt i ≠ none) (hj : j < maxFileid) (hfj : (k.procs p).fidt j = none)
    (hfcbs : k.files.fcbFreelist ≠ []) : ∃ k' a, savefid k p i = some (k', a) ∧ k'.Counted none ∧
      k'.files.fcbFreelist.length = k.files.fcbFreelist.length := by
  obtain ⟨f, hf⟩ := Option.ne_none_iff_exists'.mp hf
  have hall : (sysOpenNull k p).All AllCounted := h.openStream hp
  have hres := reserve_spec k p
  cases hr : k.reserve p with
  | mk k₁ r =>
    rw [hr] at hres
    cases hres with
    | full hfull => exact absurd hfj (hfull j hj)
    | exhausted _ hnil => exact absurd hnil hfcbs
    | grabbed a g rest hg =>
      have hopen : sysOpenNull k p =
          ((k.grab p a g rest).setStream g .NULL .nulldevFops).ret a := by
        rw [sysOpenNull, openStream, hr]
        rfl
      have hk₁ : ((k.grab p a g rest).setStream g .NULL .nulldevFops).Counted none := hall _ _ hopen
      have hfids : (((k.grab p a g rest).setStream g .NULL .nulldevFops).procs p).fidt =
          Function.update (k.procs p).fidt a (some g) := fidt_setFidt k p a (some g)
      have hlive : (((k.grab p a g rest).setStream g .NULL .nulldevFops).procs p).pstate = .alive :=
        (pstate_setFidt k p a (some g) p).trans hp
      have hcount : (((k.grab p a g rest).setStream g .NULL .nulldevFops).files.ft g).refcount - 1 =
          0 := by
        simp [IoKernel.setStream, FileTable.setStream, IoKernel.grab, fcbIncref,
          FileTable.setRefcount, FileTable.record]
      have hstream : (((k.grab p a g rest).setStream g .NULL .nulldevFops).files.ft g).streamfunc =
          some .nulldevFops := by
        simp [IoKernel.setStream, FileTable.setStream]
      have hlist : ((k.grab p a g rest).setStream g .NULL .nulldevFops).files.fcbFreelist =
          rest := rfl
      generalize (k.grab p a g rest).setStream g .NULL .nulldevFops = k₁ at *
      have hlength := congrArg List.length hg.free
      have hia := ne_of_empty hg.empty (j := i) (by rw [hf]; simp)
      have hgf : g ≠ f := by
        rintro rfl
        exact (inUse_of_slot h hi hf).2 (by rw [hg.free]; exact List.mem_cons_self)
      -- the null stream of the new fid is closed by the `Dup2`
      obtain ⟨-, -, hlast⟩ := fcbDecref_tables k₁.files g
      obtain ⟨hreleased, hcall⟩ := hlast hcount
      have hd : k₁.decref p g = some ({ k₁ with files := (fcbDecref k₁.files g).1 }, 0) := by
        unfold IoKernel.decref
        cases hdec : fcbDecref k₁.files g with
        | mk files call =>
          rw [hdec] at hcall
          simp only at hcall
          subst hcall
          simp [hstream, closeStream]
      have hdup : sysDup2 k₁ p i a =
          ((({ k₁ with files := (fcbDecref k₁.files g).1 } : IoKernel).incref f).setFidt p a
            (some f)).ret 0 := by
        have hlt := hg.lt
        unfold sysDup2
        rw [if_neg (by omega), getFcb_nat hi, hfids, Function.update_of_ne hia, hf]
        simp only [getFcb_nat hg.lt, hfids, Function.update_self, Option.some.injEq,
          if_neg hgf, hd, Int.toNat_natCast]
        rfl
      refine ⟨_, a, ?_, hk₁.dup2 hlive i a _ _ hdup, ?_⟩
      · have hopened : (sysOpenNull k p).result = some (k₁, ⟨a, [], []⟩) := by
          rw [hopen]
          rfl
        have hduped := congrArg IoResult.result hdup
        unfold savefid
        rw [hopened]
        show (if (a : Int) = noFile then none else (sysDup2 k₁ p i a).result.map _) = _
        rw [if_neg (by simp [noFile]), hduped]
        rfl
      · show (fcbDecref k₁.files g).1.fcbFreelist.length = _
        rw [hreleased, hlist, hg.free, List.length_append]
        rfl

end Calls

section Loop

variable {k k' : IoKernel} {p child : Pid} {a b i : Nat} {garbage : Nat → UInt8}
  {frags : List (List String)} {pids : List Pid}

theorem IoKernel.HeldElsewhere.congr (h : k.HeldElsewhere p i) (hprocs : k'.procs = k.procs) :
    k'.HeldElsewhere p i := by
  unfold IoKernel.HeldElsewhere
  rw [hprocs]
  exact h

theorem IoKernel.HeldElsewhere.fill {j : Nat} (h : k.HeldElsewhere p i)
    (hi : (k.procs p).fidt i ≠ none)
    (hj : (k.procs p).fidt j = none) (x : Option FcbId) : (k.setFidt p j x).HeldElsewhere p i := by
  obtain ⟨q, l, hl, hne, hsame⟩ := h
  have hij := ne_of_empty hj hi
  refine ⟨q, l, hl, hne, ?_⟩
  rw [fidt_setFidt, Function.update_of_ne hij]
  by_cases hq : q = p
  · subst hq
    have hlj := ne_of_empty hj (j := l) (by rw [hsame]; exact hi)
    rw [fidt_setFidt, Function.update_of_ne hlj, hsame]
  · rw [procs_setFidt_ne _ _ _ hq, hsame]

theorem heldElsewhere_of_exec (h : executeChild k p child = some k')
    (hp : (k.procs p).pstate = .alive)
    (hchild : 2 ≤ child.val) (hi : i < maxFileid) : k'.HeldElsewhere p i := by
  obtain ⟨hfree, -, hinherits, hothers⟩ := exec_procs h hp hchild
  have hpc := ne_of_free hfree hp
  exact ⟨child, i, hi, .inl hpc.symm, by rw [hinherits i hi, hothers p hpc]⟩

theorem startFragments_of_round {frag frag' : List String} {k₁ k₂ k₃ k₄ : IoKernel}
    {read write : Nat} {r : Pipeline}
    (h : Round k p child garbage k₁ k₂ k₃ k₄ read write)
    (hrest : startFragments p a b garbage (frag' :: frags) pids k₄ = some r) :
    startFragments p a b garbage (frag :: frag' :: frags) (child :: pids) k =
      some ⟨r.kernel, (getFcb k₁ p read, getFcb k₁ p write) :: r.pipes, child :: r.children⟩ := by
  obtain ⟨⟨bytes, hpipe⟩, hwrite, hexec, hread⟩ := h
  simp only [startFragments, hpipe, Option.bind_some, hwrite, hexec, hread, hrest, Option.map_some]

theorem round_runs (h : k.Counted none) (hs : Saved k p a b) (hheld : k.HeldElsewhere p 1)
    (hroom : ∃ i j, i < maxFileid ∧ j < maxFileid ∧ i ≠ j ∧ (k.procs p).fidt i = none ∧
      (k.procs p).fidt j = none)
    (hfcbs : 2 ≤ k.files.fcbFreelist.length) (hfree : (k.procs child).pstate = .free)
    (hchild : 2 ≤ child.val)
    (garbage : Nat → UInt8) : ∃ k₁ k₂ k₃ k₄ read write,
    Round k p child garbage k₁ k₂ k₃ k₄ read write ∧
      k₄.Counted none ∧ k₄.files.fcbFreelist.length + 2 = k.files.fcbFreelist.length := by
  obtain ⟨i, j, hi, hj, hij, hfi, hfj⟩ := hroom
  obtain ⟨k₁, ret, hpipe, h₁, ⟨bytes, read, write, rfl⟩, hlist₁⟩ :=
    pipe_runs h hs.alive garbage hi hj hij hfi hfj hfcbs
  obtain ⟨reader, writer, hlr, hlw, hrw, hempty, hempty', hp₁⟩ := pipe_procs hpipe
  have hf₁ : (k₁.procs p).fidt =
      Function.update (Function.update (k.procs p).fidt read (some reader)) write
        (some writer) := by
    rw [hp₁, fidt_setFidt, fidt_setFidt]
  have halive₁ : (k₁.procs p).pstate = .alive := by
    rw [hp₁, pstate_setFidt, pstate_setFidt]
    exact hs.alive
  have hkept : ∀ i, (k.procs p).fidt i ≠ none → (k₁.procs p).fidt i = (k.procs p).fidt i := by
    intro i hne
    rw [hf₁, Function.update_of_ne (ne_of_empty hempty' hne),
      Function.update_of_ne (ne_of_empty hempty hne)]
  have hheld₁ : k₁.HeldElsewhere p 1 := by
    refine IoKernel.HeldElsewhere.congr ?_ hp₁
    refine (hheld.fill hs.stdout hempty _).fill ?_ ?_ _
    · rw [fidt_setFidt, Function.update_of_ne (ne_of_empty hempty hs.stdout)]
      exact hs.stdout
    · rw [fidt_setFidt, Function.update_of_ne hrw.symm, hempty']
  have hw1 := ne_of_empty hempty' hs.stdout
  have hr0 := ne_of_empty hempty hs.stdin
  have hr1 := ne_of_empty hempty hs.stdout
  have hw0 := ne_of_empty hempty' hs.stdin
  have hwriter : (k₁.procs p).fidt write = some writer := by
    rw [hf₁, Function.update_self]
  obtain ⟨k₂, hwrite, h₂, hlist₂⟩ := moveFid_runs h₁ halive₁ hlw
    (show 1 < maxFileid by decide) hw1.symm
    (by rw [hwriter]; simp) (by rw [hkept 1 hs.stdout]; exact hs.stdout) hheld₁
  have hp₂ := moveFid_procs hlw (show 1 < maxFileid by decide) hwriter hwrite
  have halive₂ : (k₂.procs p).pstate = .alive := by
    rw [hp₂, pstate_setFidt, pstate_setFidt]
    exact halive₁
  have hpc := (ne_of_free hfree hs.alive).symm
  have hfree₂ : (k₂.procs child).pstate = .free := by
    rw [hp₂, pstate_setFidt, pstate_setFidt, hp₁, pstate_setFidt, pstate_setFidt]
    exact hfree
  obtain ⟨k₃, hexec, h₃, hlist₃⟩ := execute_runs h₂ halive₂ hfree₂ hchild
  obtain ⟨-, -, -, hothers⟩ := exec_procs hexec halive₂ hchild
  have hf₃ : (k₃.procs p).fidt =
      Function.update (Function.update (k₁.procs p).fidt 1 (some writer)) write none := by
    rw [hothers p hpc.symm, hp₂, fidt_setFidt, fidt_setFidt]
  have hreader : (k₃.procs p).fidt read ≠ none := by
    rw [hf₃, Function.update_of_ne hrw, Function.update_of_ne hr1.symm,
      hf₁, Function.update_of_ne hrw,
      Function.update_self]
    simp
  have hstdin : (k₃.procs p).fidt 0 ≠ none := by
    rw [hf₃, Function.update_of_ne hw0, Function.update_of_ne (by decide), hkept 0 hs.stdin]
    exact hs.stdin
  obtain ⟨k₄, hread, h₄, hlist₄⟩ := moveFid_runs h₃ (by rw [hothers p hpc.symm]; exact halive₂) hlr
    (show 0 < maxFileid by decide) hr0.symm hreader hstdin
    (heldElsewhere_of_exec hexec halive₂ hchild (by decide))
  refine ⟨k₁, k₂, k₃, k₄, read, write, ⟨⟨bytes, hpipe⟩, hwrite, hexec, hread⟩, h₄, ?_⟩
  rw [hlist₄, hlist₃, hlist₂]
  exact hlist₁

theorem lastRound_runs {frag : List String} (h : k.Counted none) (hs : Saved k p a b)
    (hheld : k.HeldElsewhere p 1)
    (hfree : (k.procs child).pstate = .free) (hchild : 2 ≤ child.val) :
    ∃ r, startFragments p a b garbage [frag] (child :: pids) k = some r := by
  have ha := hs.savein.2.1
  have hb := hs.saveout.2.1
  obtain ⟨fout, hfout⟩ := Option.ne_none_iff_exists'.mp hs.saveout.2.2
  obtain ⟨k₁, hout, h₁, -⟩ := moveFid_runs h hs.alive hs.saveout.1 (show 1 < maxFileid by decide)
    (by omega)
    hs.saveout.2.2 hs.stdout hheld
  have hp₁ := moveFid_procs hs.saveout.1 (show 1 < maxFileid by decide) hfout hout
  have halive₁ : (k₁.procs p).pstate = .alive := by
    rw [hp₁, pstate_setFidt, pstate_setFidt]
    exact hs.alive
  have hfree₁ : (k₁.procs child).pstate = .free := by
    rw [hp₁, pstate_setFidt, pstate_setFidt]
    exact hfree
  obtain ⟨k₂, hexec, h₂, -⟩ := execute_runs h₁ halive₁ hfree₁ hchild
  obtain ⟨-, -, -, hothers⟩ := exec_procs hexec halive₁ hchild
  have hpc := ne_of_free hfree hs.alive
  have hkept : ∀ i, i ≠ 1 → i ≠ b → (k₂.procs p).fidt i = (k.procs p).fidt i := by
    intro i hi1 hib
    rw [hothers p hpc, hp₁, fidt_setFidt, fidt_setFidt, Function.update_of_ne hib,
      Function.update_of_ne hi1]
  obtain ⟨k₃, hin, -, -⟩ := moveFid_runs h₂ (by rw [hothers p hpc]; exact halive₁) hs.savein.1
    (show 0 < maxFileid by decide) (by omega)
    (by rw [hkept a (by omega) hs.distinct]; exact hs.savein.2.2)
    (by rw [hkept 0 (by decide) (by omega)]; exact hs.stdin)
    (heldElsewhere_of_exec hexec halive₁ hchild (by decide))
  have hout : moveFid k p b 1 = some k₁ := hout
  have hin : moveFid k₂ p a 0 = some k₃ := hin
  exact ⟨⟨k₃, [], [child]⟩,
    by simp only [startFragments, hout, hexec, hin, Option.bind_some, Option.map_some]⟩

theorem startFragments_runs (h : k.Counted none) (hs : Saved k p a b) (hheld : k.HeldElsewhere p 1)
    (hroom : ∃ i j, i < maxFileid ∧ j < maxFileid ∧ i ≠ j ∧ (k.procs p).fidt i = none ∧
      (k.procs p).fidt j = none)
    (hfcbs : 2 * frags.length ≤ k.files.fcbFreelist.length + 2)
    (hlength : frags.length ≤ pids.length)
    (hnodup : pids.Nodup) (hpids : ∀ c ∈ pids, 2 ≤ c.val ∧ (k.procs c).pstate = .free) :
    ∃ r, startFragments p a b garbage frags pids k = some r := by
  induction frags generalizing pids k with
  | nil => exact ⟨_, rfl⟩
  | cons frag frags ih =>
    cases pids with
    | nil => simp at hlength
    | cons child pids =>
      obtain ⟨hchild, hfree⟩ := hpids child List.mem_cons_self
      cases frags with
      | nil => exact lastRound_runs h hs hheld hfree hchild
      | cons frag' frags =>
        simp only [List.length_cons] at hfcbs hlength
        obtain ⟨k₁, k₂, k₃, k₄, read, write, hround, h₄, hlist⟩ :=
          round_runs h hs hheld hroom (by omega) hfree hchild garbage
        have hleft := hround.left hs hchild
        obtain ⟨hnot, hnodup⟩ := List.nodup_cons.mp hnodup
        have hpc := (ne_of_free hfree hs.alive).symm
        obtain ⟨-, -, -, hlr⟩ := hleft.leak
        obtain ⟨hrw, hlw, hread, hwrite⟩ := hleft.room
        have hrest : ∀ c ∈ pids, 2 ≤ c.val ∧ (k₄.procs c).pstate = .free := by
          intro c hc
          obtain ⟨hc2, hcfree⟩ := hpids c (List.mem_cons_of_mem _ hc)
          have hcp := (ne_of_free hcfree hs.alive).symm
          rw [hleft.others c hcp fun he => hnot (he ▸ hc)]
          exact ⟨hc2, hcfree⟩
        obtain ⟨r, hr⟩ := ih h₄ hleft.saved ⟨child, 1, by decide, .inl hpc, hleft.held.2⟩
          ⟨read, write, hlr, hlw, hrw, hread, hwrite⟩ (by simp only [List.length_cons]; omega)
          (by simp only [List.length_cons]; omega) hnodup hrest
        exact ⟨_, startFragments_of_round hround hr⟩

end Loop

section Line

variable {k : IoKernel} {p : Pid} {argv : List String} {pids : List Pid}

theorem free_fids {F : Nat → Option FcbId}
    (h : 4 ≤ ((Finset.range maxFileid).filter fun i => F i = none).card)
    (a b : Nat) : ∃ i j, i < maxFileid ∧ j < maxFileid ∧ i ≠ j ∧ (F i = none ∧ i ≠ a ∧ i ≠ b) ∧
    F j = none ∧ j ≠ a ∧ j ≠ b := by
  have hpair : ({a, b} : Finset Nat).card ≤ 2 := Finset.card_le_two
  have hrest := Finset.le_card_sdiff {a, b} ((Finset.range maxFileid).filter fun i => F i = none)
  obtain ⟨i, hi, j, hj, hij⟩ := Finset.one_lt_card.mp
    (show 1 < (((Finset.range maxFileid).filter fun i => F i = none) \ {a, b}).card by omega)
  simp only [Finset.mem_sdiff, Finset.mem_filter, Finset.mem_range, Finset.mem_insert,
    Finset.mem_singleton, not_or]
    at hi hj
  exact ⟨i, j, hi.1.1, hj.1.1, hij, ⟨hi.1.2, hi.2⟩, hj.1.2, hj.2⟩

structure LineReady (k : IoKernel) (p : Pid) (m : Nat) (pids : List Pid) : Prop where
  alive : (k.procs p).pstate = .alive
  stdin : (k.procs p).fidt 0 ≠ none
  stdout : (k.procs p).fidt 1 ≠ none
  fids : 4 ≤ ((Finset.range maxFileid).filter fun i => (k.procs p).fidt i = none).card
  fcbs : 2 * m ≤ k.files.fcbFreelist.length
  enough : m ≤ pids.length
  nodup : pids.Nodup
  free : ∀ c ∈ pids, 2 ≤ c.val ∧ (k.procs c).pstate = .free

theorem processLine_runs (h : k.Counted none)
    (hready : LineReady k p (pipelineFragments argv).length pids)
    (haccept : accepted (pipelineFragments argv) = true) (garbage : Nat → UInt8) :
    ∃ r, processLine k p argv pids garbage = some (some r) := by
  have hpos := List.length_pos_of_ne_nil (pipelineFragments_ne_nil argv)
  have hsome := hready.fcbs
  obtain ⟨i, -, hi, -, -, ⟨hfi, -, -⟩, -⟩ := free_fids hready.fids 0 0
  obtain ⟨k₁, a, hsavein, h₁, hlist₁⟩ := savefid_runs h hready.alive
    (show 0 < maxFileid by decide) hready.stdin hi hfi
    (List.ne_nil_of_length_pos (by omega))
  obtain ⟨fin, hfin⟩ := Option.ne_none_iff_exists'.mp hready.stdin
  obtain ⟨a, -, hae, rfl, hp₁⟩ := savefid_procs (show 0 < maxFileid by decide) hfin hsavein
  have hf₁ : (k₁.procs p).fidt = Function.update (k.procs p).fidt a (some fin) := by
    rw [hp₁, fidt_setFidt]
  have ha1 := ne_of_empty hae hready.stdout
  obtain ⟨j, -, hj, -, -, ⟨hfj, hja, -⟩, -⟩ := free_fids hready.fids a a
  obtain ⟨k₂, b, hsaveout, h₂, hlist₂⟩ :=
    savefid_runs h₁ (by rw [hp₁, pstate_setFidt]; exact hready.alive)
    (show 1 < maxFileid by decide) (by rw [hf₁, Function.update_of_ne ha1]; exact hready.stdout) hj
    (by rw [hf₁, Function.update_of_ne hja, hfj]) (List.ne_nil_of_length_pos (by omega))
  obtain ⟨i, b, he, rfl, hs⟩ := saving hready.alive hready.stdin hready.stdout hsavein hsaveout
  obtain rfl : a = i := by exact_mod_cast he
  have hb := hs.saved.saveout
  have hb1 : (k₂.procs p).fidt b = (k₂.procs p).fidt 1 := by
    have ha2 := hs.saved.savein.2.1
    rw [hs.fidt, Function.update_self, Function.update_of_ne (by omega),
      Function.update_of_ne (by omega)]
  obtain ⟨i, j, hi, hj, hij, ⟨hfi, hia, hib⟩, hfj, hja, hjb⟩ := free_fids hready.fids a b
  have hkept : ∀ i, i ≠ a → i ≠ b → (k₂.procs p).fidt i = (k.procs p).fidt i := fun i hia hib => by
    rw [hs.fidt, Function.update_of_ne hib, Function.update_of_ne hia]
  have hfree : ∀ c ∈ pids, 2 ≤ c.val ∧ (k₂.procs c).pstate = .free := by
    intro c hc
    obtain ⟨hc2, hcfree⟩ := hready.free c hc
    have hcp := (ne_of_free hcfree hready.alive).symm
    rw [hs.others c hcp]
    exact ⟨hc2, hcfree⟩
  have hrun : ∃ r, startFragments p a b garbage (pipelineFragments argv) pids k₂ = some r :=
    startFragments_runs h₂ hs.saved ⟨p, b, hb.1, .inr (by omega), hb1⟩
      ⟨i, j, hi, hj, hij, by rw [hkept i hia hib, hfi], by rw [hkept j hja hjb, hfj]⟩
      (by omega) hready.enough
      hready.nodup hfree
  obtain ⟨r, hr⟩ := hrun
  have hsavein : savefid k p 0 = some (k₁, (a : Int)) := hsavein
  have hsaveout : savefid k₁ p 1 = some (k₂, (b : Int)) := hsaveout
  refine ⟨r, ?_⟩
  simp only [processLine, haccept, if_true, hsavein, Option.bind_some,
    hsaveout, hr, Option.map_some]

end Line

theorem pipeline_clean_iff {n : Nat} {k : IoKernel} {p : Pid} {argv : List String} {pids : List Pid}
    (h : Reach IoKernel.step Always (bootIo n) k)
    (hready : LineReady k p (pipelineFragments argv).length pids)
    (haccept : accepted (pipelineFragments argv) = true) (garbage : Nat → UInt8) :
    ∃ r, processLine k p argv pids garbage = some (some r) ∧
      (r.Clean k p ↔ (pipelineFragments argv).length = 1) := by
  obtain ⟨r, hr⟩ := processLine_runs (counted_of_reach h) hready haccept garbage
  have hpids : ∀ c ∈ pids, 2 ≤ c.val := fun c hc => (hready.free c hc).1
  exact ⟨r, hr, Pipeline.Clean.single hready.alive hready.stdin hready.stdout hpids hr,
    Pipeline.clean_of_single hready.alive hready.stdin hready.stdout hpids hr⟩

/-- A shell that runs as the initial process, with both streams on the null device. -/
theorem exists_lineReady : ∃ k, Reach IoKernel.step Always (bootIo 0) k ∧
    LineReady k 1 2 [2, 3] := by
  obtain ⟨k, hk, hp⟩ := exists_reach_of_exec IoKernel.step (bootIo 0) [.openNull 0, .openNull 0]
    (fun k => (k.procs 1).pstate = .alive && (k.procs 1).fidt 0 ≠ none &&
    (k.procs 1).fidt 1 ≠ none &&
      decide (4 ≤ ((Finset.range maxFileid).filter fun i => (k.procs 1).fidt i = none).card) &&
      decide ((k.files.fcbFreelist.take 4).length = 4) && (k.procs 2).pstate = .free &&
        (k.procs 3).pstate = .free) (by decide +kernel)
  simp only [Bool.and_eq_true, decide_eq_true_eq, List.length_take] at hp
  obtain ⟨⟨⟨⟨⟨⟨halive, hin⟩, hout⟩, hfids⟩, hfcbs⟩, h2⟩, h3⟩ := hp
  refine ⟨k, hk, halive, hin, hout, hfids, by omega, by decide, by decide, fun c hc => ?_⟩
  rcases List.mem_pair.mp hc with rfl | rfl
  · exact ⟨by decide, h2⟩
  · exact ⟨by decide, h3⟩

theorem pipeline_clean_iff_two : ∃ k r, processLine k 1 ["ls", "|", "wc"] [2, 3] (fun _ => 0) =
    some (some r) ∧ (r.Clean k 1 ↔ 2 = 1) := by
  obtain ⟨k, hk, hready⟩ := exists_lineReady
  have hlength : (pipelineFragments ["ls", "|", "wc"]).length = 2 := by decide +kernel
  have haccept : accepted (pipelineFragments ["ls", "|", "wc"]) = true := by decide +kernel
  rw [← hlength] at hready
  obtain ⟨r, hr, hiff⟩ := pipeline_clean_iff hk hready haccept fun _ => 0
  rw [hlength] at hiff
  exact ⟨k, r, hr, hiff⟩

/-- `ls` keeps the read end of the pipe that it writes to. -/
theorem pipeline_leaks : ∃ k r, Reach IoKernel.step Always (bootIo 0) k ∧ LineReady k 1 2 [2, 3] ∧
    processLine k 1 ["ls", "|", "wc"] [2, 3] (fun _ => 0) = some (some r) ∧ ¬ r.Clean k 1 := by
  obtain ⟨k, hk, hready⟩ := exists_lineReady
  have hlength : (pipelineFragments ["ls", "|", "wc"]).length = 2 := by decide +kernel
  have haccept : accepted (pipelineFragments ["ls", "|", "wc"]) = true := by decide +kernel
  have hline := hready
  rw [← hlength] at hline
  obtain ⟨r, hr⟩ := processLine_runs (counted_of_reach hk) hline haccept fun _ => 0
  refine ⟨k, r, hk, hready, hr, fun hclean => ?_⟩
  have hone := hclean.single hready.alive hready.stdin hready.stdout
    (fun c hc => (hready.free c hc).1) hr
  omega

end TinyOS
