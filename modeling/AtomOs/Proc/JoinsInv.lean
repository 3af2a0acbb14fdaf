import AtomOs.Proc.Joins

/-!
# Every structure is destroyed once

`Ok s` describes all states before the handler starts to destroy what is left on the list of the
process. A structure is on the list, or on its way from there to `destroy_thread` in the hands of one
call or of the handler, or destroyed. `Ended s` describes the states after that: no thread runs any more,
and all structures have been destroyed.

A step is about one structure. What it does to the others is `Same`, which carries over the part of the
invariant that is about one structure (`ThreadOk`), and `Ok.change` puts the parts together again. So each
step has to show only what happens to its own structure: a call's (`Ok.callStep`), the handler's
(`Ok.handlerStep`). **`threads_destroyed_once`** is about every run.
-/

namespace AtomOs.Joins

open Lib Function List

variable {s : Joins} {c t : Addr}

/-! ## The invariant -/

/-- Somebody is about to destroy the structure. -/
def Leaves (s : Joins) (t : Addr) : Prop := (∃ c, s.pc c = .removed t) ∨ s.handler = .unlinked t

/-- What is true of the structure that a call works with. -/
def CallOk (s : Joins) : CallPc → Prop
  | .out => True
  | .joinFound t | .detachFound t | .detachMarked t => t ∈ s.threadptr
  | .joinAsleep t => t ∈ s.threadptr ∧ s.life t ≠ .terminated
  | .joinWoken t | .holding t | .leaving t => t ∈ s.threadptr ∧ s.life t = .terminated
  | .removed t => t ∉ s.threadptr ∧ s.life t = .terminated ∧ s.destroyed t = 0

/-- What is true of the structure that the handler works with. -/
def HandlerOk (s : Joins) : HandlerPc → Prop
  | .idle | .checking => True
  | .got t | .marking t => s.life t = .terminating ∧ t ∈ s.threadptr ∧ t ∉ s.terminatedThreads
  | .unlinking t =>
    (s.life t = .terminating ∧ t ∈ s.threadptr ∧ t ∉ s.terminatedThreads) ∧
      s.joinable t = false ∧ ∀ c, (s.pc c).target ≠ some t
  | .unlinked t =>
    (s.life t = .terminating ∧ t ∉ s.threadptr ∧ s.destroyed t = 0) ∧
      s.joinable t = false ∧ ∀ c, (s.pc c).target ≠ some t
  | .cleaning _ | .finished => False

/-- Before the process is cleaned up. -/
structure Ok (s : Joins) : Prop where
  nodup : s.threadptr.Nodup
  listed : ∀ {t}, t ∈ s.threadptr → s.destroyed t = 0 ∧ s.removed t = 0 ∧ s.life t ≠ .unborn
  gone : ∀ {t}, t ∉ s.threadptr → s.life t ≠ .unborn → s.removed t = 1 ∧
    (s.destroyed t = 1 ∧ s.life t = .terminated ∨ s.destroyed t = 0 ∧ s.Leaves t)
  unborn : ∀ {t}, s.life t = .unborn → s.destroyed t = 0 ∧ s.removed t = 0
  created : ∀ {t}, s.life t ≠ .unborn ↔ t ∈ s.created
  live : ∀ {t}, s.life t = .live → t ∈ s.threadptr
  queue : ∀ {t}, t ∈ s.terminatedThreads → s.life t = .terminating ∧ t ∈ s.threadptr
  queueNodup : s.terminatedThreads.Nodup
  callers : ∀ {c}, s.pc c ≠ .out → s.life c = .live
  apart : ∀ {c c' t}, (s.pc c).target = some t → (s.pc c').target = some t → c = c'
  call : ∀ c, s.CallOk (s.pc c)
  handler : s.HandlerOk s.handler
  good : s.bad = false

/-- After that. -/
structure Ended (s : Joins) : Prop where
  dead : ∀ t, s.life t = .unborn ∨ s.life t = .terminated
  idle : ∀ c, s.pc c = .out
  gone : ∀ {t}, s.life t ≠ .unborn → s.destroyed t = 1 ∧ s.removed t = 1
  unborn : ∀ {t}, s.life t = .unborn → s.destroyed t = 0 ∧ s.removed t = 0
  created : ∀ {t}, s.life t ≠ .unborn ↔ t ∈ s.created
  good : s.bad = false

def Inv (s : Joins) : Prop := s.Ok ∨ (s.handler = .cleaning [] ∨ s.handler = .finished) ∧ s.Ended

variable {s' : Joins} {pc : CallPc} {x : Addr} {v : Life} {pc' : Addr → CallPc}
  {handler' : HandlerPc} {id : Nat} {op : Op}

theorem CallOk.of_same (h : s.CallOk pc)
    (hsame : ∀ {t}, pc.target = some t → (t ∈ s'.threadptr ↔ t ∈ s.threadptr) ∧
      (s'.life t = .terminated ↔ s.life t = .terminated) ∧ s'.destroyed t = s.destroyed t) :
    s'.CallOk pc := by
  cases pc with
  | out => trivial
  | joinFound t | detachFound t | detachMarked t | joinAsleep t | joinWoken t | holding t | leaving t
  | removed t =>
    obtain ⟨hmem, hlife, hdes⟩ := hsame rfl
    simpa only [CallOk, ne_eq, hmem, hlife, hdes] using h

/-- Nothing has happened to a structure. -/
structure Same (s s' : Joins) (x : Addr) : Prop where
  listed : x ∈ s'.threadptr ↔ x ∈ s.threadptr
  queued : x ∈ s'.terminatedThreads ↔ x ∈ s.terminatedThreads
  created : x ∈ s'.created ↔ x ∈ s.created
  life : s'.life x = s.life x
  destroyed : s'.destroyed x = s.destroyed x
  removed : s'.removed x = s.removed x
  detached : s.joinable x = false → s'.joinable x = false

/-- The handler looks at a structure that is terminating, and at the calls for it if it is detached. -/
theorem HandlerOk.of_same {pc : HandlerPc} (h : s.HandlerOk pc)
    (hsame : ∀ {t}, (pc = .unlinked t ∨ t ∈ s.threadptr) → s.life t = .terminating → Same s s' t)
    (hcalls : ∀ {c t}, (s'.pc c).target = some t → s.joinable t = false → (s.pc c).target = some t) :
    s'.HandlerOk pc := by
  cases pc with
  | idle | checking | cleaning | finished => exact h
  | got t | marking t =>
    have hs := hsame (.inr h.2.1) h.1
    exact ⟨hs.life.trans h.1, hs.listed.mpr h.2.1, mt hs.queued.mp h.2.2⟩
  | unlinking t =>
    have hs := hsame (.inr h.1.2.1) h.1.1
    exact ⟨⟨hs.life.trans h.1.1, hs.listed.mpr h.1.2.1, mt hs.queued.mp h.1.2.2⟩, hs.detached h.2.1,
      fun c hc => h.2.2 c (hcalls hc h.2.1)⟩
  | unlinked t =>
    have hs := hsame (.inl rfl) h.1.1
    exact ⟨⟨hs.life.trans h.1.1, mt hs.listed.mp h.1.2.1, hs.destroyed.trans h.1.2.2⟩,
      hs.detached h.2.1, fun c hc => h.2.2 c (hcalls hc h.2.1)⟩

structure ThreadOk (s : Joins) (t : Addr) : Prop where
  listed : t ∈ s.threadptr → s.destroyed t = 0 ∧ s.removed t = 0 ∧ s.life t ≠ .unborn
  gone : t ∉ s.threadptr → s.life t ≠ .unborn → s.removed t = 1 ∧
    (s.destroyed t = 1 ∧ s.life t = .terminated ∨ s.destroyed t = 0 ∧ s.Leaves t)
  unborn : s.life t = .unborn → s.destroyed t = 0 ∧ s.removed t = 0
  created : s.life t ≠ .unborn ↔ t ∈ s.created
  live : s.life t = .live → t ∈ s.threadptr
  queue : t ∈ s.terminatedThreads → s.life t = .terminating ∧ t ∈ s.threadptr

theorem ThreadOk.of_same (h : s.ThreadOk t) (hs : Same s s' t) (hleaves : s.Leaves t → s'.Leaves t) :
    s'.ThreadOk t := by
  obtain ⟨hlisted, hqueued, hcreated, hlife, hdes, hrem, -⟩ := hs
  constructor <;> simp only [hlisted, hqueued, hcreated, hlife, hdes, hrem]
  case listed => exact h.listed
  case gone =>
    intro ht hborn
    exact (h.gone ht hborn).imp id (Or.imp id (And.imp id hleaves))
  case unborn => exact h.unborn
  case created => exact h.created
  case live => exact h.live
  case queue => exact h.queue

theorem ThreadOk.of_listed (hmem : t ∈ s.threadptr) (hdes : s.destroyed t = 0) (hrem : s.removed t = 0)
    (hborn : s.life t ≠ .unborn) (hcreated : t ∈ s.created)
    (hqueue : t ∈ s.terminatedThreads → s.life t = .terminating) : s.ThreadOk t :=
  ⟨fun _ => ⟨hdes, hrem, hborn⟩, fun hno => absurd hmem hno, fun hno => absurd hno hborn,
    iff_of_true hborn hcreated, fun _ => hmem, fun hq => ⟨hqueue hq, hmem⟩⟩

theorem ThreadOk.of_gone (hnot : t ∉ s.threadptr) (hqueue : t ∉ s.terminatedThreads)
    (hlife : s.life t = .terminating ∨ s.life t = .terminated) (hcreated : t ∈ s.created)
    (hrem : s.removed t = 1)
    (hcase : s.destroyed t = 1 ∧ s.life t = .terminated ∨ s.destroyed t = 0 ∧ s.Leaves t) :
    s.ThreadOk t := by
  have hborn : s.life t ≠ .unborn := by
    rcases hlife with hl | hl <;> rw [hl] <;> simp
  refine ⟨fun hno => absurd hno hnot, fun _ _ => ⟨hrem, hcase⟩, fun hno => absurd hno hborn,
    iff_of_true hborn hcreated, fun hno => ?_, fun hno => absurd hno hqueue⟩
  rw [hno] at hlife
  simp at hlife

/-! ## Calls -/

section

variable (h : s.Ok)
include h

/-- The structure of a call is that of a thread that has been created, and is not destroyed. -/
theorem Ok.intact (ht : (s.pc c).target = some t) : s.destroyed t = 0 ∧ s.life t ≠ .unborn := by
  have hcall := h.call c
  cases hpc : s.pc c <;> rw [hpc] at ht hcall
  case out => cases ht
  case joinFound t' | detachFound t' | detachMarked t' =>
    cases ht
    exact (h.listed hcall).imp_right And.right
  case joinAsleep t' | joinWoken t' | holding t' | leaving t' =>
    cases ht
    exact (h.listed hcall.1).imp_right And.right
  case removed t' =>
    cases ht
    exact ⟨hcall.2.2, by rw [hcall.2.1]; simp⟩

theorem Ok.touch_eq (ht : (s.pc c).target = some t) : s.touch t = s := by
  unfold touch
  rw [(h.intact ht).1]
  simp

theorem Ok.setLock (holder : Option Addr) : (s.setLock t holder).Ok :=
  ⟨h.nodup, h.listed, h.gone, h.unborn, h.created, h.live, h.queue, h.queueNodup, h.callers, h.apart,
    h.call, h.handler, h.good⟩

/-- A call goes on with its structure, or ends. It does not end a call that has still to destroy. -/
theorem Ok.setPc (hlive : s.life c = .live) (hok : s.CallOk pc) (hold : ∀ t, s.pc c ≠ .removed t)
    (hnew : ∀ t, pc.target = some t → (s.pc c).target = some t ∨
      s.joinable t = true ∧ ∀ c', (s.pc c').target ≠ some t) : (s.setPc c pc).Ok := by
  have hself : (s.setPc c pc).pc c = pc := update_self _ _ _
  have hother : ∀ {c'}, c' ≠ c → (s.setPc c pc).pc c' = s.pc c' := fun hc => update_of_ne hc _ _
  have htarget : ∀ {c' t}, ((s.setPc c pc).pc c').target = some t →
      (s.pc c').target = some t ∨ c' = c ∧ s.joinable t = true ∧ ∀ c', (s.pc c').target ≠ some t := by
    intro c' t ht
    by_cases hc : c' = c
    · subst hc
      rw [hself] at ht
      exact (hnew t ht).imp id fun hfree => ⟨rfl, hfree⟩
    · rw [hother hc] at ht
      exact .inl ht
  refine ⟨h.nodup, h.listed, fun {t} ht hborn => ?_, h.unborn, h.created, h.live, h.queue, h.queueNodup,
    fun {c'} hc' => ?_, fun {c1 c2 t} h1 h2 => ?_, fun c' => ?_, ?_, h.good⟩
  · obtain ⟨hrem, hcase⟩ := h.gone ht hborn
    refine ⟨hrem, hcase.imp id fun hl => ⟨hl.1, hl.2.imp (fun ⟨c', hc'⟩ => ⟨c', ?_⟩) id⟩⟩
    have hne : c' ≠ c := fun he => hold t (he ▸ hc')
    rw [hother hne]
    exact hc'
  · by_cases hc : c' = c
    · rw [hc]
      exact hlive
    · rw [hother hc] at hc'
      exact h.callers hc'
  · rcases htarget h1 with h1 | ⟨hc1, -, hfree⟩
    · rcases htarget h2 with h2 | ⟨-, -, hfree⟩
      · exact h.apart h1 h2
      · exact absurd h1 (hfree _)
    · rcases htarget h2 with h2 | ⟨hc2, -, -⟩
      · exact absurd h2 (hfree _)
      · exact hc1.trans hc2.symm
  · by_cases hc : c' = c
    · rw [hc, hself]
      cases pc <;> exact hok
    · rw [hother hc]
      exact (h.call c').of_same fun _ => ⟨.rfl, .rfl, rfl⟩
  · refine h.handler.of_same (fun _ _ => ⟨.rfl, .rfl, .rfl, rfl, rfl, rfl, id⟩) fun hc' hdet => ?_
    refine (htarget hc').resolve_right fun ⟨_, hjoin, _⟩ => ?_
    rw [hdet] at hjoin
    cases hjoin

theorem Ok.detach : { s with joinable := update s.joinable t false }.Ok := by
  have hkeep : ∀ {x}, s.joinable x = false → update s.joinable t false x = false := by
    intro x hx
    rw [update_apply]
    split
    · rfl
    · exact hx
  refine ⟨h.nodup, h.listed, h.gone, h.unborn, h.created, h.live, h.queue, h.queueNodup, h.callers,
    h.apart, h.call, ?_, h.good⟩
  exact h.handler.of_same (fun _ _ => ⟨.rfl, .rfl, .rfl, rfl, rfl, rfl, hkeep⟩) fun hc _ => hc

theorem Ok.change (hnodup : s'.threadptr.Nodup) (hqueue : s'.terminatedThreads.Nodup)
    (hsame : ∀ {x}, x ≠ t → Same s s' x) (hthread : s'.ThreadOk t)
    (hlive : s.life t = .live → s.pc t ≠ .out → s'.life t = .live)
    (hpc : ∀ c, s'.pc c = s.pc c ∨
      (s.pc c).target = some t ∧ ((s'.pc c).target = some t ∨ s'.pc c = .out))
    (hcall : ∀ c, (s.pc c).target = some t → s'.CallOk (s'.pc c))
    (hhandler : s'.handler = s.handler ∧
        (s.life t = .terminating → s.handler ≠ .unlinked t ∧ t ∉ s.threadptr) ∨
      s'.HandlerOk s'.handler ∧ ∀ x, s.handler = .unlinked x → x = t)
    (hgood : s'.bad = false) : s'.Ok := by
  have hkept : ∀ {c}, (s.pc c).target ≠ some t → s'.pc c = s.pc c := fun hc =>
    (hpc _).resolve_right fun hno => hc hno.1
  have htarget : ∀ {c x}, (s'.pc c).target = some x → (s.pc c).target = some x := by
    intro c x hx
    rcases hpc c with he | ⟨ht, ht' | hout⟩
    · rwa [he] at hx
    · rw [ht, ← ht', hx]
    · rw [hout] at hx
      cases hx
  have hthreads : ∀ x, s'.ThreadOk x := fun x => by
    by_cases hx : x = t
    · rw [hx]
      exact hthread
    have hold : s.ThreadOk x := ⟨h.listed, h.gone, h.unborn, h.created, h.live, h.queue⟩
    refine hold.of_same (hsame hx) (Or.imp ?_ fun hun => ?_)
    · rintro ⟨c, hc⟩
      refine ⟨c, (hkept fun ht => hx ?_).trans hc⟩
      rw [hc] at ht
      exact Option.some.inj ht
    · rcases hhandler with ⟨he, -⟩ | ⟨-, hun'⟩
      · exact he.trans hun
      · exact absurd (hun' x hun) hx
  refine ⟨hnodup, (hthreads _).listed, (hthreads _).gone, (hthreads _).unborn, (hthreads _).created,
    (hthreads _).live, (hthreads _).queue, hqueue, fun {c} hc => ?_,
    fun h1 h2 => h.apart (htarget h1) (htarget h2), fun c => ?_, ?_, hgood⟩
  · have hc' : s.pc c ≠ .out := fun hno => by
      rcases hpc c with he | ⟨ht, -⟩
      · exact hc (he.trans hno)
      · rw [hno] at ht
        cases ht
    by_cases hct : c = t
    · subst hct
      exact hlive (h.callers hc') hc'
    · exact (hsame hct).life.trans (h.callers hc')
  · by_cases hc : (s.pc c).target = some t
    · exact hcall c hc
    · rw [hkept hc]
      refine (h.call c).of_same fun hx => ?_
      have hs := hsame fun he => hc (he ▸ hx)
      exact ⟨hs.listed, by rw [hs.life], hs.destroyed⟩
  · rcases hhandler with ⟨he, hfree⟩ | ⟨hok, -⟩
    · rw [he]
      refine h.handler.of_same (fun hx hl => hsame fun hxt => ?_) fun hc _ => htarget hc
      subst hxt
      exact hx.elim (hfree hl).1 (hfree hl).2
    · exact hok

/-- A structure is taken out of the list by the one that will destroy it: a call, or the handler. -/
theorem Ok.taken (hmem : t ∈ s.threadptr)
    (hdead : s.life t = .terminating ∨ s.life t = .terminated) (hqueue : t ∉ s.terminatedThreads)
    (hpc : ∀ c, pc' c = s.pc c ∧ (s.pc c).target ≠ some t ∨ s.pc c = .leaving t ∧ pc' c = .removed t)
    (hhandler : handler' = s.handler ∧ s.life t = .terminated ∨
      s.handler = .unlinking t ∧ handler' = .unlinked t)
    (howner : (∃ c, pc' c = .removed t) ∨ handler' = .unlinked t) :
    ({ s.unlinkSib t with pc := pc', handler := handler' } : Joins).Ok := by
  unfold unlinkSib
  rw [if_pos hmem]
  have hnot : t ∉ s.threadptr.erase t := h.nodup.not_mem_erase
  obtain ⟨hdes, hrem, hborn⟩ := h.listed hmem
  refine h.change (t := t) (h.nodup.erase t) h.queueNodup
    (fun hx => ⟨mem_erase_of_ne hx, .rfl, .rfl, rfl, rfl, update_of_ne hx _ _, id⟩)
    (.of_gone hnot hqueue hdead (h.created.mp hborn) ?_ (.inr ⟨hdes, howner⟩))
    (fun hl _ => hl) (fun c => ?_) (fun c hc => ?_) ?_ h.good
  · show update s.removed t (s.removed t + 1) t = 1
    rw [update_self, hrem]
  · rcases hpc c with ⟨he, -⟩ | ⟨hl, he⟩
    · exact .inl he
    · exact .inr ⟨congrArg CallPc.target hl, .inl (congrArg CallPc.target he)⟩
  · obtain ⟨hl, he⟩ := (hpc c).resolve_left fun hno => hno.2 hc
    have hcall := h.call c
    rw [hl] at hcall
    show CallOk _ (pc' c)
    rw [he]
    exact ⟨hnot, hcall.2, hdes⟩
  · rcases hhandler with ⟨he, hterm⟩ | ⟨hun, he⟩
    · exact .inl ⟨he, fun hl => absurd (hterm.symm.trans hl) (by simp)⟩
    have hh := h.handler
    rw [hun] at hh
    refine .inr ⟨?_, fun x hx => absurd (hun.symm.trans hx) (by simp)⟩
    show HandlerOk _ handler'
    rw [he]
    refine ⟨⟨hh.1.1, hnot, hdes⟩, hh.2.1, fun c hc => ?_⟩
    rcases hpc c with ⟨he, hne⟩ | ⟨hl, -⟩
    · exact hne (he ▸ hc)
    · exact hh.2.2 c (congrArg CallPc.target hl)

theorem Ok.remove (hpc : s.pc c = .leaving t) : ((s.removeSib t).setPc c (.removed t)).Ok := by
  obtain ⟨hmem, hlife⟩ : t ∈ s.threadptr ∧ s.life t = .terminated := by
    have hcall := h.call c
    rwa [hpc] at hcall
  have hself : update s.pc c (.removed t) c = .removed t := update_self _ _ _
  have hqueue : t ∉ s.terminatedThreads := fun hq => by
    have hold := (h.queue hq).1
    rw [hlife] at hold
    cases hold
  have htaken := h.taken hmem (.inr hlife) hqueue (fun c' => ?_) (.inl ⟨rfl, hlife⟩) (.inl ⟨c, hself⟩)
  · have heq : (s.removeSib t).setPc c (.removed t) = { s.unlinkSib t with
        pc := update s.pc c (.removed t), handler := s.handler } := by
      unfold removeSib unlinkSib Joins.setPc
      rw [if_pos hmem, if_pos hmem]
    rw [heq]
    exact htaken
  · by_cases hc : c' = c
    · rw [hc]
      exact .inr ⟨hpc, hself⟩
    · exact .inl ⟨update_of_ne hc _ _, fun hx => hc (h.apart hx (by rw [hpc]; rfl))⟩

/-- The one that took a structure out of the list destroys it: a call, which then ends, or the
    handler. -/
theorem Ok.destroy (ht : t ∉ s.threadptr)
    (hlife : s.life t = .terminating ∨ s.life t = .terminated) (hzero : s.destroyed t = 0)
    (hpc : ∀ c, pc' c = s.pc c ∨ s.pc c = .removed t ∧ pc' c = .out)
    (hunused : ∀ c, (pc' c).target ≠ some t)
    (hhandler : handler' = s.handler ∧ s.handler ≠ .unlinked t ∨
      s.handler = .unlinked t ∧ handler' = .checking) :
    ({ s.destroyThread t with pc := pc', handler := handler' } : Joins).Ok := by
  have hborn : s.life t ≠ .unborn := by
    rcases hlife with hl | hl <;> rw [hl] <;> simp
  have hdead : s.life t ≠ .live := by
    rcases hlife with hl | hl <;> rw [hl] <;> simp
  have hself : update s.life t .terminated t = .terminated := update_self _ _ _
  refine h.change (t := t) h.nodup h.queueNodup
    (fun hx => ⟨.rfl, .rfl, .rfl, update_of_ne hx _ _, update_of_ne hx _ _, rfl, id⟩)
    (.of_gone ht (fun hq => ht (h.queue hq).2) (.inr hself) (h.created.mp hborn) (h.gone ht hborn).1
      (.inl ⟨?_, hself⟩))
    (fun hl => absurd hl hdead) (fun c => ?_) (fun c hc => ?_) ?_ ?_
  · show update s.destroyed t (s.destroyed t + 1) t = 1
    rw [update_self, hzero]
  · rcases hpc c with he | ⟨hr, he⟩
    · exact .inl he
    · exact .inr ⟨congrArg CallPc.target hr, .inr he⟩
  · show CallOk _ (pc' c)
    rcases hpc c with he | ⟨-, he⟩
    · exact absurd (he ▸ hc) (hunused c)
    · rw [he]
      trivial
  · rcases hhandler with ⟨he, hne⟩ | ⟨hun, he⟩
    · exact .inl ⟨he, fun _ => ⟨hne, ht⟩⟩
    · refine .inr ⟨?_, fun x hx => (HandlerPc.unlinked.inj (hun.symm.trans hx)).symm⟩
      show HandlerOk _ handler'
      rw [he]
      trivial
  · show (s.bad || decide (s.life t = .live)) = false
    rw [h.good]
    simpa using hdead

theorem Ok.callStep (hstep : s.callStep c = some s') : s'.Ok := by
  have hlive : s.pc c ≠ .out → s.life c = .live := h.callers
  have hcall := h.call c
  have htarget : ∀ {pc t}, s.pc c = pc → pc.target = some t → (s.pc c).target = some t :=
    fun he ht => he ▸ ht
  unfold Joins.callStep at hstep
  cases hpc : s.pc c <;> rw [hpc] at hstep hcall hlive <;> simp only at hstep
  case out | joinAsleep => cases hstep
  case joinFound t =>
    rw [h.touch_eq (htarget hpc rfl)] at hstep
    obtain ⟨-, hstep⟩ := Option.ite_none_right_eq_some.mp hstep
    split at hstep
    · rename_i hterm
      cases hstep
      exact (h.setLock _).setPc (hlive (by simp)) ⟨hcall, hterm⟩ (by simp [Joins.setLock, hpc])
        fun t' ht' => .inl (htarget hpc ht')
    · rename_i hterm
      cases hstep
      exact h.setPc (hlive (by simp)) ⟨hcall, hterm⟩ (by simp [hpc])
        fun t' ht' => .inl (htarget hpc ht')
  case joinWoken t =>
    rw [h.touch_eq (htarget hpc rfl)] at hstep
    obtain ⟨-, hstep⟩ := Option.ite_none_right_eq_some.mp hstep
    cases hstep
    exact (h.setLock _).setPc (hlive (by simp)) hcall (by simp [Joins.setLock, hpc])
      fun t' ht' => .inl (htarget hpc ht')
  case detachFound t =>
    rw [h.touch_eq (htarget hpc rfl)] at hstep
    obtain ⟨-, hstep⟩ := Option.ite_none_right_eq_some.mp hstep
    split at hstep
    · rename_i hterm
      cases hstep
      exact (h.setLock _).setPc (hlive (by simp)) ⟨hcall, hterm⟩ (by simp [Joins.setLock, hpc])
        fun t' ht' => .inl (htarget hpc ht')
    · cases hstep
      exact (h.setLock _).detach.setPc (hlive (by simp)) hcall (by simp [Joins.setLock, hpc])
        fun t' ht' => .inl (htarget hpc ht')
  case detachMarked t =>
    rw [h.touch_eq (htarget hpc rfl)] at hstep
    cases hstep
    exact (h.setLock _).setPc (hlive (by simp)) trivial (by simp [Joins.setLock, hpc])
      fun t' ht' => absurd ht' (by simp [CallPc.target])
  case holding t =>
    rw [h.touch_eq (htarget hpc rfl)] at hstep
    cases hstep
    exact (h.setLock _).setPc (hlive (by simp)) hcall (by simp [Joins.setLock, hpc])
      fun t' ht' => .inl (htarget hpc ht')
  case leaving t =>
    rw [h.touch_eq (htarget hpc rfl)] at hstep
    cases hstep
    exact h.remove hpc
  case removed t =>
    cases hstep
    show ({ s.destroyThread t with pc := update s.pc c .out, handler := s.handler } : Joins).Ok
    refine h.destroy hcall.1 (.inr hcall.2.1) hcall.2.2 (fun c' => ?_) (fun c' hc' => ?_)
      (.inl ⟨rfl, fun hun => ?_⟩)
    · by_cases hc : c' = c
      · exact .inr ⟨hc ▸ hpc, by rw [hc, update_self]⟩
      · exact .inl (update_of_ne hc _ _)
    · by_cases hc : c' = c
      · rw [hc, update_self] at hc'
        cases hc'
      · rw [update_of_ne hc] at hc'
        exact hc (h.apart hc' (htarget hpc rfl))
    · have hh := h.handler
      rw [hun] at hh
      exact hh.2.2 c (htarget hpc rfl)

/-! ## The handler -/

theorem Ok.setHandler {pc : HandlerPc} (hold : ∀ t, s.handler ≠ .unlinked t)
    (hok : s.HandlerOk pc) : ({ s with handler := pc } : Joins).Ok := by
  refine ⟨h.nodup, h.listed, fun {x} hx hborn => ?_, h.unborn, h.created, h.live, h.queue,
    h.queueNodup, h.callers, h.apart, fun c => ?_, ?_, h.good⟩
  · obtain ⟨hrem, hcase⟩ := h.gone hx hborn
    exact ⟨hrem, hcase.imp id fun hl => ⟨hl.1, hl.2.imp id fun hun => absurd hun (hold x)⟩⟩
  · exact (h.call c).of_same fun _ => ⟨.rfl, .rfl, rfl⟩
  · exact hok.of_same (fun _ _ => ⟨.rfl, .rfl, .rfl, rfl, rfl, rfl, id⟩) fun hc _ => hc

theorem Ok.marked (hhandler : s.handler = .marking t) :
    ({ ({ s with life := update s.life t .terminated }.wakeJoiners t) with
      handler := .checking } : Joins).Ok := by
  obtain ⟨hlife, hmem, hqueue⟩ : s.life t = .terminating ∧ t ∈ s.threadptr ∧
      t ∉ s.terminatedThreads := by
    have hh := h.handler
    rwa [hhandler] at hh
  have hself : update s.life t .terminated t = .terminated := update_self _ _ _
  obtain ⟨hdes, hrem, hborn⟩ := h.listed hmem
  refine h.change (t := t) h.nodup h.queueNodup
    (fun hx => ⟨.rfl, .rfl, .rfl, update_of_ne hx _ _, rfl, rfl, id⟩)
    (.of_listed hmem hdes hrem (fun hno => ?_) (h.created.mp hborn) fun hq => absurd hq hqueue)
    (fun hl => absurd (hlife.symm.trans hl) (by simp)) (fun c => ?_) (fun c hc => ?_)
    (.inr ⟨trivial, fun x hx => absurd (hhandler.symm.trans hx) (by simp)⟩) h.good
  · cases hself.symm.trans hno
  · show (if s.pc c = .joinAsleep t then CallPc.joinWoken t else s.pc c) = s.pc c ∨ _
    split
    · rename_i hc
      exact .inr ⟨congrArg CallPc.target hc, .inl (congrArg CallPc.target (if_pos hc))⟩
    · exact .inl rfl
  · show CallOk _ (if s.pc c = .joinAsleep t then CallPc.joinWoken t else s.pc c)
    have hcall := h.call c
    split
    · exact ⟨hmem, hself⟩
    rename_i hne
    cases hpc : s.pc c <;> rw [hpc] at hcall hne hc <;> cases hc
    case joinFound.refl | detachFound.refl | detachMarked.refl => exact hmem
    case joinAsleep.refl => exact absurd rfl hne
    case joinWoken.refl | holding.refl | leaving.refl => exact ⟨hmem, hself⟩
    case removed.refl => exact absurd hmem hcall.1

theorem Ok.unlinked (hhandler : s.handler = .unlinking t) :
    ({ s.unlinkSib t with handler := .unlinked t } : Joins).Ok := by
  obtain ⟨⟨hlife, hmem, hqueue⟩, -, hunused⟩ : (s.life t = .terminating ∧ t ∈ s.threadptr ∧
      t ∉ s.terminatedThreads) ∧ s.joinable t = false ∧ ∀ c, (s.pc c).target ≠ some t := by
    have hh := h.handler
    rwa [hhandler] at hh
  have htaken := h.taken hmem (.inl hlife) hqueue (fun c => .inl ⟨rfl, hunused c⟩)
    (.inr ⟨hhandler, rfl⟩) (.inr rfl)
  have heq : ({ s.unlinkSib t with handler := .unlinked t } : Joins) =
      { s.unlinkSib t with pc := s.pc, handler := .unlinked t } := by
    unfold unlinkSib
    rw [if_pos hmem]
  rw [heq]
  exact htaken

theorem Ok.ended (hhandler : s.handler = .checking) (hnil : s.threadptr = []) {pc : HandlerPc} :
    ({ s with handler := pc } : Joins).Ended := by
  have hnot : ∀ t, t ∉ s.threadptr := fun t => by simp [hnil]
  have hidle : ∀ c, s.pc c = .out := fun c => by
    by_contra hc
    exact hnot c (h.live (h.callers hc))
  have hgone : ∀ {t}, s.life t ≠ .unborn →
      s.removed t = 1 ∧ s.destroyed t = 1 ∧ s.life t = .terminated := by
    intro t hborn
    obtain ⟨hrem, hdone | ⟨-, ⟨c, hc⟩ | hun⟩⟩ := h.gone (hnot t) hborn
    · exact ⟨hrem, hdone⟩
    · rw [hidle c] at hc
      cases hc
    · rw [hhandler] at hun
      cases hun
  refine ⟨fun t => or_iff_not_imp_left.mpr fun hborn => (hgone hborn).2.2, hidle,
    fun hborn => ⟨(hgone hborn).2.1, (hgone hborn).1⟩, h.unborn, h.created, h.good⟩

/-- **One step of the handler** before the process is cleaned up. -/
theorem Ok.handlerStep (hop : s.HandleOk s.handler) (hstep : s.handlerStep = some s') : s'.Inv := by
  have hh := h.handler
  unfold Joins.handlerStep at hstep
  cases hhandler : s.handler <;> rw [hhandler] at hstep hh hop <;> simp only at hstep
  case idle =>
    cases hqueue : s.terminatedThreads with
    | nil =>
      rw [hqueue] at hstep
      cases hstep
    | cons t rest =>
      rw [hqueue] at hstep
      cases hstep
      have hnd := h.queueNodup
      rw [hqueue] at hnd
      obtain ⟨hfirst, hnd⟩ := nodup_cons.mp hnd
      have hsub : ∀ {x}, x ∈ rest → x ∈ s.terminatedThreads := fun hx => by
        rw [hqueue]
        exact mem_cons_of_mem _ hx
      have hpopped : ({ s with terminatedThreads := rest } : Joins).Ok :=
        ⟨h.nodup, h.listed, h.gone, h.unborn, h.created, h.live, fun hx => h.queue (hsub hx), hnd,
          h.callers, h.apart, h.call, by rw [hhandler]; trivial, h.good⟩
      have ht := h.queue (t := t) (by rw [hqueue]; exact mem_cons_self)
      exact .inl (hpopped.setHandler (by simp [hhandler]) ⟨ht.1, ht.2, hfirst⟩)
  case got t =>
    cases hstep
    refine .inl (h.setHandler (by simp [hhandler]) ?_)
    split
    · exact hh
    rename_i hjoin
    have hjoin' : s.joinable t = false := by simpa using hjoin
    have hunused : s.Unused t := hop.resolve_left (by simp [hjoin'])
    refine ⟨hh, hjoin', fun c hc => hunused c ?_ hc⟩
    have hne : s.pc c ≠ .out := fun hno => by
      rw [hno] at hc
      cases hc
    exact h.created.mp (by rw [h.callers hne]; simp)
  case marking t =>
    obtain ⟨-, hstep⟩ := Option.ite_none_right_eq_some.mp hstep
    cases hstep
    exact .inl (h.marked hhandler)
  case unlinking t =>
    cases hstep
    exact .inl (h.unlinked hhandler)
  case unlinked t =>
    cases hstep
    exact .inl (h.destroy hh.1.2.1 (.inl hh.1.1) hh.1.2.2 (fun _ => .inl rfl) hh.2.2
      (.inr ⟨hhandler, rfl⟩))
  case checking =>
    split at hstep
    · rename_i hall
      cases hstep
      have hnil : s.threadptr = [] := hop hall
      exact .inr ⟨.inl (by rw [hnil]), h.ended hhandler hnil⟩
    · cases hstep
      exact .inl (h.setHandler (by simp [hhandler]) trivial)
  case cleaning | finished => exact absurd hh id

end

/-! ## Runs -/

theorem Ok.create (h : s.Ok) (hborn : s.life t = .unborn) : ({ s with
      threadptr := t :: s.threadptr
      ktThreadid := update s.ktThreadid t id
      life := update s.life t .live
      joinable := update s.joinable t true
      created := t :: s.created } : Joins).Ok := by
  have hself : update s.life t .live t = .live := update_self _ _ _
  have hnot : t ∉ s.threadptr := fun ht => (h.listed ht).2.2 hborn
  have hunused : ∀ c, (s.pc c).target ≠ some t := fun c hc => (h.intact hc).2 hborn
  refine h.change (t := t) (nodup_cons.mpr ⟨hnot, h.nodup⟩) h.queueNodup (fun hx => ?_)
    (.of_listed mem_cons_self (h.unborn hborn).1 (h.unborn hborn).2 (fun hno => ?_) mem_cons_self
      fun hq => absurd (h.queue hq).2 hnot)
    (fun hl => absurd (hborn.symm.trans hl) (by simp)) (fun c => .inl rfl)
    (fun c hc => absurd hc (hunused c))
    (.inl ⟨rfl, fun hl => absurd (hborn.symm.trans hl) (by simp)⟩) h.good
  · refine ⟨by simp [hx], .rfl, by simp [hx], update_of_ne hx _ _, rfl, rfl, fun hdet => ?_⟩
    exact (update_of_ne hx _ _).trans hdet
  · cases hself.symm.trans hno

theorem Ok.exit (h : s.Ok) (hlive : s.life c = .live) (hout : s.pc c = .out) : ({ s with
      life := update s.life c .terminating
      terminatedThreads := c :: s.terminatedThreads } : Joins).Ok := by
  have hself : update s.life c .terminating c = .terminating := update_self _ _ _
  have hmem := h.live hlive
  obtain ⟨hdes, hrem, hborn⟩ := h.listed hmem
  refine h.change (t := c) h.nodup (nodup_cons.mpr ⟨fun hc => ?_, h.queueNodup⟩)
    (fun hx => ⟨.rfl, by simp [hx], .rfl, update_of_ne hx _ _, rfl, rfl, id⟩)
    (.of_listed hmem hdes hrem (fun hno => ?_) (h.created.mp hborn) fun _ => hself)
    (fun _ hno => absurd hout hno) (fun c' => .inl rfl) (fun c' hc' => ?_)
    (.inl ⟨rfl, fun hl => absurd (hlive.symm.trans hl) (by simp)⟩) h.good
  · cases hlive.symm.trans (h.queue hc).1
  · cases hself.symm.trans hno
  · refine (h.call c').of_same fun hx => ⟨.rfl, ?_, rfl⟩
    obtain rfl := Option.some.inj (hc'.symm.trans hx)
    show update s.life c .terminating c = .terminated ↔ s.life c = .terminated
    rw [hself, hlive]
    simp

theorem Ok.start (h : s.Ok) (hlive : s.life c = .live) (hout : s.pc c = .out)
    (hmem : t ∈ s.threadptr) (hpc : pc = .joinFound t ∨ pc = .detachFound t)
    (hmay : s.MayStart (some t)) : (s.setPc c pc).Ok := by
  refine h.setPc hlive ?_ (by simp [hout]) fun t' ht' => .inr ?_
  · rcases hpc with rfl | rfl <;> exact hmem
  · obtain rfl : t = t' := by
      rcases hpc with rfl | rfl <;> exact Option.some.inj ht'
    refine ⟨hmay.1, fun c' hc' => hmay.2 c' ?_ hc'⟩
    have hne : s.pc c' ≠ .out := fun hno => by
      rw [hno] at hc'
      cases hc'
    exact h.created.mp (by rw [h.callers hne]; simp)

theorem find_mem (h : s.find id = some t) : t ∈ s.threadptr := mem_of_find?_eq_some h

theorem joinTarget_mem (h : s.joinTarget c id = some t) : t ∈ s.threadptr := by
  unfold joinTarget at h
  split at h
  · cases h
  · exact find_mem h

theorem free_iff : s.free c = true ↔ s.life c = .live ∧ s.pc c = .out := by
  unfold free
  rw [decide_eq_true_iff]

theorem Ok.step (h : s.Ok) (hop : s.OpOk op) (hstep : s.step op = some s') : s'.Inv := by
  cases op with
  | create c t id =>
    obtain ⟨hif, hstep⟩ := Option.ite_none_right_eq_some.mp hstep
    cases hstep
    exact .inl (h.create hif.2)
  | exit c =>
    obtain ⟨hif, hstep⟩ := Option.ite_none_right_eq_some.mp hstep
    cases hstep
    exact .inl (h.exit (free_iff.mp hif).1 (free_iff.mp hif).2)
  | join c id =>
    obtain ⟨hif, hstep⟩ := Option.ite_none_right_eq_some.mp hstep
    cases hstep
    simp only [OpOk] at hop
    cases hfind : s.joinTarget c id with
    | none => exact .inl h
    | some t =>
      rw [hfind] at hop
      exact .inl (h.start (free_iff.mp hif).1 (free_iff.mp hif).2 (joinTarget_mem hfind) (.inl rfl) hop)
  | detach c id =>
    obtain ⟨hif, hstep⟩ := Option.ite_none_right_eq_some.mp hstep
    cases hstep
    simp only [OpOk] at hop
    cases hfind : s.find id with
    | none => exact .inl h
    | some t =>
      rw [hfind] at hop
      exact .inl (h.start (free_iff.mp hif).1 (free_iff.mp hif).2 (find_mem hfind) (.inr rfl) hop)
  | call c => exact .inl (h.callStep hstep)
  | handle => exact h.handlerStep hop hstep

/-- Once no thread runs any more, only the handler does anything, and there is nothing left to destroy. -/
theorem Ended.step (h : s.Ended) (hhandler : s.handler = .cleaning [] ∨ s.handler = .finished)
    (hstep : s.step op = some s') : s'.Inv := by
  have hfree : ∀ c, s.free c ≠ true := fun c hc => by
    have hlive := (free_iff.mp hc).1
    rcases h.dead c with hd | hd <;> rw [hd] at hlive <;> cases hlive
  cases op with
  | create c t id =>
    simp only [Joins.step] at hstep
    rw [if_neg fun hif => hfree c hif.1] at hstep
    cases hstep
  | exit c | join c id | detach c id =>
    simp only [Joins.step] at hstep
    rw [if_neg (hfree c)] at hstep
    cases hstep
  | call c =>
    have hcall : s.callStep c = none := by
      unfold Joins.callStep
      rw [h.idle c]
    exact absurd (hcall.symm.trans hstep) (by simp)
  | handle =>
    have hrun : s.handlerStep = some s' := hstep
    unfold Joins.handlerStep at hrun
    rcases hhandler with hh | hh <;> rw [hh] at hrun <;> cases hrun
    exact .inr ⟨.inr rfl, h.dead, h.idle, h.gone, h.unborn, h.created, h.good⟩

theorem Inv.step (h : s.Inv) (hop : s.OpOk op) (hstep : s.step op = some s') : s'.Inv := by
  rcases h with h | ⟨hhandler, h⟩
  · exact h.step hop hstep
  · exact h.step hhandler hstep

/-- A process with one thread. -/
def boot (t : Addr) (id : Nat) : Joins :=
  { threadptr := [t]
    ktThreadid := fun _ => id
    life := Function.update (fun _ => .unborn) t .live
    joinable := fun _ => true
    exitlock := fun _ => none
    terminatedThreads := []
    pc := fun _ => .out
    handler := .idle
    created := [t]
    destroyed := fun _ => 0
    removed := fun _ => 0
    bad := false }

theorem boot_ok (t : Addr) (id : Nat) : (boot t id).Ok := by
  have hlife : ∀ {x}, (boot t id).life x ≠ .unborn ↔ x = t := by
    intro x
    show update (fun _ => Life.unborn) t .live x ≠ .unborn ↔ x = t
    rw [update_apply]
    split
    · simp_all
    · simp_all
  refine ⟨nodup_singleton t, fun {x} hx => ?_, fun {x} hx hborn => ?_, fun _ => ⟨rfl, rfl⟩,
    fun {x} => ?_, fun {x} hx => ?_, fun hx => absurd hx not_mem_nil, nodup_nil,
    fun hc => absurd rfl hc, fun h1 => absurd h1 (by simp [boot, CallPc.target]), fun _ => trivial,
    trivial, rfl⟩
  · exact ⟨rfl, rfl, hlife.mpr (mem_singleton.mp hx)⟩
  · exact absurd (mem_singleton.mpr (hlife.mp hborn)) hx
  · rw [hlife]
    exact mem_singleton.symm
  · exact mem_singleton.mpr (hlife.mp (by rw [hx]; simp))

/-- What a run has done to a structure: it is there, perhaps off the list already, or it has been taken
    out of the list and destroyed, both once, after its thread has terminated. -/
theorem Inv.fate (h : s.Inv) (t : Addr) : s.destroyed t = 0 ∧ s.removed t ≤ 1 ∨
    s.destroyed t = 1 ∧ s.removed t = 1 ∧ s.life t = .terminated := by
  rcases h with h | ⟨-, h⟩
  · by_cases hborn : s.life t = .unborn
    · exact .inl ⟨(h.unborn hborn).1, by rw [(h.unborn hborn).2]; exact Nat.zero_le _⟩
    by_cases ht : t ∈ s.threadptr
    · exact .inl ⟨(h.listed ht).1, by rw [(h.listed ht).2.1]; exact Nat.zero_le _⟩
    · obtain ⟨hrem, ⟨hone, hlife⟩ | ⟨hzero, -⟩⟩ := h.gone ht hborn
      · exact .inr ⟨hone, hrem, hlife⟩
      · exact .inl ⟨hzero, hrem.le⟩
  · by_cases hborn : s.life t = .unborn
    · exact .inl ⟨(h.unborn hborn).1, by rw [(h.unborn hborn).2]; exact Nat.zero_le _⟩
    · exact .inr ⟨(h.gone hborn).1, (h.gone hborn).2, (h.dead t).resolve_left hborn⟩

/-- **Every structure is destroyed once.** In every run of a process in which a thread is joined or
    detached only while it is joinable and no other call is under way for it, in which the handler does
    not find a thread detached while a call is under way for it, and in which no thread is left on the
    list when all have terminated:

    * no structure is destroyed twice, or taken out of the list twice;
    * no call uses a structure after it was destroyed;
    * a structure that has been destroyed is that of a thread that has terminated, and was taken out of
      the list;
    * when the process ends, every structure has been taken out of the list and destroyed. -/
theorem threads_destroyed_once {t₀ : Addr} {id : Nat} (hreach : Reaches step OpOk (boot t₀ id) s) :
    (∀ t, s.destroyed t ≤ 1 ∧ s.removed t ≤ 1) ∧ s.bad = false ∧
    (∀ t, s.destroyed t = 1 → s.life t = .terminated ∧ s.removed t = 1) ∧
    (s.handler = .finished → ∀ t ∈ s.created, s.destroyed t = 1 ∧ s.removed t = 1) := by
  have hinv : s.Inv := hreach.invariant Inv (.inl (boot_ok t₀ id)) fun h hop hstep => h.step hop hstep
  refine ⟨fun t => ?_, hinv.elim Ok.good fun h => h.2.good, fun t ht => ?_, fun hfin t ht => ?_⟩
  · rcases hinv.fate t with ⟨hz, hr⟩ | ⟨ho, hr, -⟩ <;> omega
  · rcases hinv.fate t with ⟨hz, -⟩ | ⟨-, hr, hlife⟩
    · omega
    · exact ⟨hlife, hr⟩
  · rcases hinv with h | ⟨-, h⟩
    · have hh := h.handler
      rw [hfin] at hh
      exact False.elim hh
    · exact h.gone (h.created.mpr ht)

/-- One thread waits for another, which exits; and a thread detaches itself and exits, and its process
    ends. -/
theorem threads_destroyed_once_join :
    (∃ s, Reaches step OpOk (boot 1 10) s ∧ s.destroyed 2 = 1 ∧ s.removed 2 = 1) ∧
    ∃ s, Reaches step OpOk (boot 1 10) s ∧ s.handler = .finished ∧ s.destroyed 1 = 1 ∧
      s.removed 1 = 1 := by
  constructor
  · obtain ⟨s, hs, hdes⟩ : ∃ s ∈ runOps step OpOk (boot 1 10)
        [.create 1 2 20, .join 1 20, .call 1, .exit 2, .handle, .handle, .handle, .call 1, .call 1,
          .call 1, .call 1], s.destroyed 2 = 1 := by decide +kernel
    have hreach := reaches_of_runOps hs
    exact ⟨s, hreach, hdes, ((threads_destroyed_once hreach).2.2.1 2 hdes).2⟩
  · obtain ⟨s, hs, hfin, hmem⟩ : ∃ s ∈ runOps step OpOk (boot 1 10)
        [.detach 1 10, .call 1, .call 1, .exit 1, .handle, .handle, .handle, .handle, .handle, .handle],
          s.handler = .finished ∧ 1 ∈ s.created := by decide +kernel
    have hreach := reaches_of_runOps hs
    exact ⟨s, hreach, hfin, (threads_destroyed_once hreach).2.2.2 hfin 1 hmem⟩

/-- Two threads wait for a third one: the second of them uses its structure after the first has
    destroyed it. And a thread that nobody joins is destroyed when its process ends, but stays on the
    list. -/
theorem joined_twice :
    (∃ s, Reaches step (fun _ _ => True) (boot 1 10) s ∧ s.destroyed 2 = 1 ∧ s.bad = true) ∧
    ∃ s, Reaches step (fun _ _ => True) (boot 1 10) s ∧ s.handler = .finished ∧ s.destroyed 1 = 1 ∧
      s.removed 1 = 0 ∧ s.threadptr = [1] := by
  constructor
  · obtain ⟨s, hs, hend⟩ : ∃ s ∈ runOps step (fun _ _ => True) (boot 1 10)
        [.create 1 2 20, .create 1 3 30, .join 1 20, .join 3 20, .call 1, .call 3, .exit 2, .handle,
          .handle, .handle, .call 1, .call 1, .call 1, .call 1, .call 3],
          s.destroyed 2 = 1 ∧ s.bad = true := by decide +kernel
    exact ⟨s, reaches_of_runOps hs, hend⟩
  · obtain ⟨s, hs, hend⟩ : ∃ s ∈ runOps step (fun _ _ => True) (boot 1 10)
        [.exit 1, .handle, .handle, .handle, .handle, .handle, .handle], s.handler = .finished ∧
          s.destroyed 1 = 1 ∧ s.removed 1 = 0 ∧ s.threadptr = [1] := by decide +kernel
    exact ⟨s, reaches_of_runOps hs, hend⟩

end AtomOs.Joins
