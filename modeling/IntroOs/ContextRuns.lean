/-
Whole runs of `context_switch`: any number of threads on any number of cores,
each with a stack of its own, switch to each other in any order.  Whoever is
switched to gets back what it had when it switched away.
-/
import IntroOs.ContextSwitch
import IntroOs.HeapFit
import IntroOs.History

namespace IntroOs

namespace ContextSwitch

open Aarch64

/-- The kernel image, as far as it matters here. -/
structure Image where
  prog : Program
  switchAddr : Word
  trampolineAddr : Word
  threadEntry : Word
  switch_located : Located prog switchAddr contextSwitch
  trampoline_located :
    Located prog trampolineAddr (threadTrampoline threadEntry)

/-- The two ways to build a TCB. -/
inductive Maker where
  | tcb (entry : Word)
  | threadTcb (func : Word)
deriving DecidableEq

def Maker.make (image : Image) (home : Home) (m : Mem) : Maker → Mem
  | .tcb entry => makeTcb entry home m
  | .threadTcb func => makeThreadTcb image.trampolineAddr func home m

def Maker.context (image : Image) (home : Home) : Maker → Context
  | .tcb entry => home.context 0 entry
  | .threadTcb func => home.context func image.trampolineAddr

/-- `context_switch` is called by a thread with a context, and brings back a
thread with what is then in the registers. -/
inductive Event (Thread : Type) where
  | make (t : Thread) (home : Home) (maker : Maker)
  | call (t : Thread) (ctx : Context)
  | resume (t : Thread) (cpu : Cpu)

structure System (Core Thread : Type) where
  cpus : Core → Cpu
  mem : Mem
  running : Core → Option Thread
  home : Thread → Option Home

/-- Different TCBs have different memory. -/
structure Apart (home home' : Home) : Prop where
  disjoint : ∀ a, InSpan home.stack kStackSize a →
    ¬ InSpan home'.stack kStackSize a
  slots : home.slot ≠ home'.slot
  left : ¬ InSpan home'.stack kStackSize home.slot
  right : ¬ InSpan home.stack kStackSize home'.slot

theorem Apart.symm {home home' : Home} (h : Apart home home') :
    Apart home' home :=
  ⟨fun a ha ha' => h.disjoint a ha' ha, h.slots.symm, h.right, h.left⟩

/-- A pointer that `new uint8_t[kStackSize]` has returned. -/
def StackAlloc (stack : Word) : Prop :=
  ∃ (A : Heap.Arena) (heap : Heap.State) (p : Nat), Heap.Reachable A heap ∧
    ⟨p, kStackSize⟩ ∈ heap.live ∧ stack = BitVec.ofNat 64 p

theorem StackAlloc.aligned {stack : Word} (h : StackAlloc stack) :
    stack.toNat % 16 = 0 := by
  obtain ⟨A, heap, p, hreach, hlive, rfl⟩ := h
  obtain ⟨segs, hinv⟩ := hreach.inv
  obtain ⟨block, hblock, hptr, -⟩ := hinv.exists_block hlive
  obtain ⟨-, -, hoffset, -⟩ :=
    hinv.tiled.block_spec (Tiling.mem_live.mp hblock).1
  have hbase := A.aligned
  unfold Heap.kAlignment at hbase
  unfold Heap.ptrOf at hptr
  simp only at hptr
  rw [BitVec.toNat_ofNat, hptr]
  omega

variable {Core Thread : Type} [DecidableEq Core] [DecidableEq Thread]

/-- The thread is suspended, or has not run yet. -/
def System.Waits (s : System Core Thread) (t : Thread) (home : Home) : Prop :=
  s.home t = some home ∧ ∀ c, s.running c ≠ some t

/-- The saved frames of the threads that wait, and where their TCBs point to
them. -/
def System.Protected (s : System Core Thread) (a : Word) : Prop :=
  ∃ t home, s.Waits t home ∧
    (a = home.slot ∨ InSpan (s.mem home.slot) sizeofSavedFrame a)

/-- Code that runs on a core does what it likes with the registers and the
memory, but for the frames of those who wait.  A core calls `context_switch`
from a thread, whose frame then lies in its own stack, or from the code that
runs before its first thread. -/
inductive Step (image : Image) (s : System Core Thread) :
    List (Event Thread) → System Core Thread → Prop
  | work (c : Core) (cpu : Cpu) {mem : Mem}
      (keeps : ∀ a, s.Protected a → mem a = s.mem a) :
      Step image s []
        { s with cpus := Function.update s.cpus c cpu, mem := mem }
  | make {t : Thread} {home : Home} (maker : Maker) (new : s.home t = none)
      (idle : ∀ c, s.running c ≠ some t)
      (allocated : StackAlloc home.stack)
      (own : ¬ InSpan home.stack kStackSize home.slot)
      (apart : ∀ t' home', s.home t' = some home' → Apart home home') :
      Step image s [.make t home maker]
        { s with
          mem := maker.make image home s.mem
          home := Function.update s.home t (some home) }
  | reap {t : Thread} {home : Home} (waits : s.Waits t home) :
      Step image s [] { s with home := Function.update s.home t none }
  | switch {c : Core} {prev next : Thread} {home home' : Home} {cpu : Cpu}
      {mem : Mem} (runs : s.running c = some prev)
      (at_home : s.home prev = some home) (at_home' : s.home next = some home')
      (waits : next = prev ∨ ∀ c, s.running c ≠ some next)
      (called : (s.cpus c).pc = image.switchAddr)
      (x0 : (s.cpus c).x 0 = home.slot) (x1 : (s.cpus c).x 1 = home'.slot)
      (room : ∀ a, InSpan (contextOf (s.cpus c)).base sizeofSavedFrame a →
        InSpan home.stack kStackSize a)
      (returns : steps image.prog contextSwitch.length (s.cpus c, s.mem) =
        some (cpu, mem)) :
      Step image s [.call prev (contextOf (s.cpus c)), .resume next cpu]
        { s with
          cpus := Function.update s.cpus c cpu
          mem := mem
          running := Function.update s.running c (some next) }
  | first {c : Core} {next : Thread} {home : Home} {cpu : Cpu} {mem : Mem}
      (runs : s.running c = none) (waits : s.Waits next home)
      (called : (s.cpus c).pc = image.switchAddr)
      (x1 : (s.cpus c).x 1 = home.slot)
      (scratch : ¬ s.Protected ((s.cpus c).x 0))
      (room : ∀ a, InSpan (contextOf (s.cpus c)).base sizeofSavedFrame a →
        ¬ s.Protected a)
      (returns : steps image.prog contextSwitch.length (s.cpus c, s.mem) =
        some (cpu, mem)) :
      Step image s [.resume next cpu]
        { s with
          cpus := Function.update s.cpus c cpu
          mem := mem
          running := Function.update s.running c (some next) }

inductive Run (image : Image) :
    List (Event Thread) → System Core Thread → Prop
  | start (cpus : Core → Cpu) (mem : Mem) :
      Run image [] ⟨cpus, mem, fun _ => none, fun _ => none⟩
  | step {past events : List (Event Thread)} {s s' : System Core Thread}
      (before : Run image past s) (step : Step image s events s') :
      Run image (past ++ events) s'

def Event.thread : Event Thread → Thread
  | .make t _ _ | .call t _ | .resume t _ => t

/-- The latest event about the thread. -/
def lastOf (t : Thread) (past : List (Event Thread)) : Option (Event Thread) :=
  (past.filter fun e => e.thread = t).getLast?

/-- A thread that has called `context_switch` comes back with the same context
behind the call.  A new one starts at its entry on an empty stack; one that
`make_thread_tcb(func)` has built gets to `thread_entry(func)`. -/
def Law (image : Image) (past : List (Event Thread)) : Event Thread → Prop
  | .resume t cpu =>
      match lastOf t past with
      | some (.call _ ctx) => contextOf cpu = ctx ∧ cpu.pc = ctx.frame.x30
      | some (.make _ home (.tcb entry)) =>
          cpu.pc = entry ∧ cpu.sp = home.stackTop ∧ cpu.sp.toNat % 16 = 0
      | some (.make _ home (.threadTcb func)) =>
          ∀ m, ∃ cpu', steps image.prog 2 (cpu, m) = some (cpu', m) ∧
            cpu'.pc = image.threadEntry ∧ cpu'.x 0 = func ∧
            cpu'.sp = home.stackTop ∧ cpu'.sp.toNat % 16 = 0
      | _ => False
  | _ => True

/-- The context that the event left for its thread, which lives at `home`. -/
def Event.Leaves (image : Image) (home : Home) (ctx : Context) :
    Event Thread → Prop
  | .make _ home' maker => home' = home ∧ ctx = maker.context image home
  | .call _ ctx' => ctx = ctx'
  | .resume _ _ => False

structure Inv (image : Image) (past : List (Event Thread))
    (s : System Core Thread) : Prop where
  once : ∀ {c c' t}, s.running c = some t → s.running c' = some t → c = c'
  aligned : ∀ {t home}, s.home t = some home → home.stack.toNat % 16 = 0
  own : ∀ {t home}, s.home t = some home →
    ¬ InSpan home.stack kStackSize home.slot
  apart : ∀ {t t' home home'}, s.home t = some home → s.home t' = some home' →
    t ≠ t' → Apart home home'
  waits : ∀ {t home}, s.Waits t home → ∃ e ctx, lastOf t past = some e ∧
    e.Leaves image home ctx ∧ Holds s.mem home.slot ctx ∧
    ∀ a, InSpan ctx.base sizeofSavedFrame a → InSpan home.stack kStackSize a
  law : History.Along (Law image) past

variable {image : Image} {past : List (Event Thread)}
  {s s' : System Core Thread} {t : Thread}

theorem lastOf_concat_self (past : List (Event Thread)) (e : Event Thread)
    (h : e.thread = t) : lastOf t (past ++ [e]) = some e := by
  simp [lastOf, h]

theorem lastOf_concat_of_ne (past : List (Event Thread)) (e : Event Thread)
    (hne : e.thread ≠ t) : lastOf t (past ++ [e]) = lastOf t past := by
  simp [lastOf, hne]

theorem stackTop_aligned {home : Home} (h : home.stack.toNat % 16 = 0) :
    home.stackTop.toNat % 16 = 0 := by
  unfold Home.stackTop kStackSize
  rw [BitVec.toNat_add]
  simp only [BitVec.toNat_ofNat]
  omega

theorem frame_in_stack (home : Home) {a : Word}
    (h : InSpan home.frame sizeofSavedFrame a) :
    InSpan home.stack kStackSize a := by
  unfold InSpan Home.frame Home.stackTop sizeofSavedFrame kStackSize at *
  bv_omega

/-- The call runs to its `ret`, and a context that waits at `x1` is in the
registers then. -/
theorem switch_steps {cpu cpu' : Cpu} {m m' : Mem}
    (hcalled : cpu.pc = image.switchAddr)
    (hreturns : steps image.prog contextSwitch.length (cpu, m) =
      some (cpu', m')) :
    m' = saved cpu m ∧ ∀ ctx, Holds (saved cpu m) (cpu.x 1) ctx →
      contextOf cpu' = ctx ∧ cpu'.pc = ctx.frame.x30 := by
  have hlocated : Located image.prog (cpu, m).1.pc contextSwitch :=
    hcalled ▸ image.switch_located
  rw [steps_of_located hlocated contextSwitch_straight] at hreturns
  obtain ⟨cpu'', hexec, hback⟩ := exec_contextSwitch cpu m
  rw [hexec] at hreturns
  cases hreturns
  exact ⟨rfl, hback⟩

/-- Being switched to, as the law has it. -/
theorem law_of_leaves {home : Home} {e : Event Thread} {ctx : Context}
    {cpu : Cpu} (hlast : lastOf t past = some e)
    (hleaves : e.Leaves image home ctx) (haligned : home.stack.toNat % 16 = 0)
    (hctx : contextOf cpu = ctx) (hpc : cpu.pc = ctx.frame.x30) :
    Law image past (.resume t cpu) := by
  subst hctx
  simp only [Law, hlast]
  cases e with
  | resume _ _ => exact hleaves
  | call t' ctx' =>
      cases hleaves
      exact ⟨rfl, hpc⟩
  | make t' home' maker =>
      obtain ⟨rfl, hctx⟩ := hleaves
      have htop := stackTop_aligned haligned
      have hsp : cpu.sp = home'.stackTop := by
        cases maker <;> exact congrArg Context.sp hctx
      cases maker with
      | tcb entry =>
          rw [hctx] at hpc
          exact ⟨hpc, hsp, hsp ▸ htop⟩
      | threadTcb func =>
          intro m
          rw [hctx] at hpc
          have hfunc : cpu.x 19 = func := congrArg (·.frame.x19) hctx
          have hlocated : Located image.prog (cpu, m).1.pc
              (threadTrampoline image.threadEntry) := by
            rw [hpc]
            exact image.trampoline_located
          have hsteps :=
            steps_of_located hlocated (threadTrampoline_straight _)
          rw [exec_threadTrampoline] at hsteps
          refine ⟨_, hsteps, rfl, ?_, hsp, ?_⟩
          · simpa using hfunc
          · simpa only [hsp] using htop

section

omit [DecidableEq Core]

/-- Those who wait go on waiting when their slots and frames are left alone. -/
theorem Inv.waits_congr (h : Inv image past s) {home : Home} {mem : Mem}
    (hwaits : s.Waits t home)
    (hslot : mem home.slot = s.mem home.slot)
    (hstack : ∀ a, InSpan home.stack kStackSize a → mem a = s.mem a) :
    ∃ e ctx, lastOf t past = some e ∧ e.Leaves image home ctx ∧
      Holds mem home.slot ctx ∧
      ∀ a, InSpan ctx.base sizeofSavedFrame a →
        InSpan home.stack kStackSize a := by
  obtain ⟨e, ctx, hlast, hleaves, hholds, hin⟩ := h.waits hwaits
  exact ⟨e, ctx, hlast, hleaves,
    hholds.congr hslot fun a ha => hstack a (hin a ha), hin⟩

theorem Inv.make (h : Inv image past s) {home : Home} (maker : Maker)
    (hstack : StackAlloc home.stack)
    (hown : ¬ InSpan home.stack kStackSize home.slot)
    (hapart : ∀ t' home', s.home t' = some home' → Apart home home') :
    Inv image (past ++ [.make t home maker])
      { s with
        mem := maker.make image home s.mem
        home := Function.update s.home t (some home) } := by
  have hcases : ∀ {t' home'},
      Function.update s.home t (some home) t' = some home' →
        t' = t ∧ home' = home ∨ t' ≠ t ∧ s.home t' = some home' := by
    intro t' home' hhome
    by_cases heq : t' = t
    · subst heq
      rw [Function.update_self] at hhome
      exact .inl ⟨rfl, (Option.some.inj hhome).symm⟩
    · rw [Function.update_of_ne heq] at hhome
      exact .inr ⟨heq, hhome⟩
  have hframe : ¬ InSpan home.frame sizeofSavedFrame home.slot :=
    fun hin => hown (frame_in_stack home hin)
  have hmem : ∀ {a}, a ≠ home.slot → ¬ InSpan home.stack kStackSize a →
      maker.make image home s.mem a = s.mem a := by
    intro a hslot hstack
    have hout : ¬ InSpan home.frame sizeofSavedFrame a :=
      fun hin => hstack (frame_in_stack home hin)
    cases maker with
    | tcb entry => exact makeTcb_of_ne hslot hout
    | threadTcb func => exact makeThreadTcb_of_ne hslot hout
  refine ⟨h.once, ?_, ?_, ?_, ?_, h.law.concat trivial⟩
  · intro t' home' hhome
    rcases hcases hhome with ⟨-, rfl⟩ | ⟨-, hold⟩
    · exact hstack.aligned
    · exact h.aligned hold
  · intro t' home' hhome
    rcases hcases hhome with ⟨-, rfl⟩ | ⟨-, hold⟩
    · exact hown
    · exact h.own hold
  · intro t₁ t₂ home₁ home₂ hhome₁ hhome₂ hne
    rcases hcases hhome₁ with ⟨rfl, rfl⟩ | ⟨-, hold₁⟩
    · rcases hcases hhome₂ with ⟨rfl, -⟩ | ⟨-, hold₂⟩
      · exact absurd rfl hne
      · exact hapart t₂ home₂ hold₂
    · rcases hcases hhome₂ with ⟨rfl, rfl⟩ | ⟨-, hold₂⟩
      · exact (hapart t₁ home₁ hold₁).symm
      · exact h.apart hold₁ hold₂ hne
  · rintro t' home' ⟨hhome, hidle⟩
    rcases hcases hhome with ⟨rfl, rfl⟩ | ⟨hne, hold⟩
    · refine ⟨.make t' home' maker, maker.context image home',
        lastOf_concat_self past _ rfl, ⟨rfl, rfl⟩, ?_, ?_⟩
      · cases maker with
        | tcb entry => exact makeTcb_holds entry s.mem hframe
        | threadTcb func => exact makeThreadTcb_holds _ func s.mem hframe
      · intro a ha
        cases maker <;> exact frame_in_stack home' ha
    · have hap := hapart t' home' hold
      rw [lastOf_concat_of_ne _ _ (fun heq => hne heq.symm)]
      refine h.waits_congr ⟨hold, hidle⟩ (hmem hap.slots.symm hap.right) ?_
      intro a ha
      refine hmem ?_ (fun hin => hap.disjoint a hin ha)
      rintro rfl
      exact hap.left ha

theorem Inv.reap (h : Inv image past s) :
    Inv image past { s with home := Function.update s.home t none } := by
  have hold : ∀ {t' home'}, Function.update s.home t none t' = some home' →
      s.home t' = some home' := by
    intro t' home' hhome
    by_cases heq : t' = t
    · rw [heq, Function.update_self] at hhome
      cases hhome
    · rwa [Function.update_of_ne heq] at hhome
  exact ⟨h.once, fun hhome => h.aligned (hold hhome),
    fun hhome => h.own (hold hhome),
    fun hhome hhome' => h.apart (hold hhome) (hold hhome'),
    fun hwaits => h.waits ⟨hold hwaits.1, hwaits.2⟩, h.law⟩

/-- What those who wait have left behind is theirs. -/
theorem Inv.protected_within (h : Inv image past s) {a : Word}
    (hprotected : s.Protected a) :
    ∃ t home, s.home t = some home ∧
      (a = home.slot ∨ InSpan home.stack kStackSize a) := by
  obtain ⟨t, home, hwaits, ha⟩ := hprotected
  obtain ⟨-, ctx, -, -, hholds, hin⟩ := h.waits hwaits
  rw [hholds.1] at ha
  exact ⟨t, home, hwaits.1, ha.imp_right (hin a)⟩

end

theorem Inv.work (h : Inv image past s) (c : Core) (cpu : Cpu) {mem : Mem}
    (hkeeps : ∀ a, s.Protected a → mem a = s.mem a) :
    Inv image past
      { s with cpus := Function.update s.cpus c cpu, mem := mem } := by
  refine ⟨h.once, h.aligned, h.own, h.apart, ?_, h.law⟩
  intro t home hwaits
  have hwaits' : s.Waits t home := hwaits
  obtain ⟨e, ctx, hlast, hleaves, hholds, hin⟩ := h.waits hwaits'
  refine ⟨e, ctx, hlast, hleaves, hholds.congr ?_ fun a ha => ?_, hin⟩
  · exact hkeeps _ ⟨t, home, hwaits', .inl rfl⟩
  · exact hkeeps a ⟨t, home, hwaits', .inr (hholds.1 ▸ ha)⟩

/-- Those who wait after a core has gone over to `next`. -/
theorem waits_cases {c : Core} {next : Thread} {home : Home}
    {cpus : Core → Cpu} {mem : Mem}
    (hwaits : System.Waits ⟨cpus, mem, Function.update s.running c (some next),
      s.home⟩ t home) :
    t ≠ next ∧ (s.running c = some t ∨ s.Waits t home) := by
  obtain ⟨hhome, hidle⟩ := hwaits
  have hne : t ≠ next := by
    rintro rfl
    exact hidle c (Function.update_self ..)
  refine ⟨hne, ?_⟩
  by_cases hruns : s.running c = some t
  · exact .inl hruns
  · refine .inr ⟨hhome, fun c' hc' => ?_⟩
    by_cases heq : c' = c
    · exact hruns (heq ▸ hc')
    · exact hidle c' ((Function.update_of_ne heq _ _).trans hc')

theorem once_update (h : Inv image past s) {c : Core} {next : Thread}
    (hidle : ∀ c', c' ≠ c → s.running c' ≠ some next) {c₁ c₂ : Core}
    (h₁ : Function.update s.running c (some next) c₁ = some t)
    (h₂ : Function.update s.running c (some next) c₂ = some t) : c₁ = c₂ := by
  by_cases heq₁ : c₁ = c
  · by_cases heq₂ : c₂ = c
    · rw [heq₁, heq₂]
    · rw [heq₁, Function.update_self] at h₁
      rw [Function.update_of_ne heq₂, ← h₁] at h₂
      exact absurd h₂ (hidle c₂ heq₂)
  · rw [Function.update_of_ne heq₁] at h₁
    by_cases heq₂ : c₂ = c
    · rw [heq₂, Function.update_self] at h₂
      rw [← h₂] at h₁
      exact absurd h₁ (hidle c₁ heq₁)
    · rw [Function.update_of_ne heq₂] at h₂
      exact h.once h₁ h₂

theorem Inv.switch (h : Inv image past s) {c : Core} {prev next : Thread}
    {home home' : Home} {cpu : Cpu} {mem : Mem}
    (hruns : s.running c = some prev) (hhome : s.home prev = some home)
    (hhome' : s.home next = some home')
    (hwaits : next = prev ∨ ∀ c, s.running c ≠ some next)
    (hcalled : (s.cpus c).pc = image.switchAddr)
    (hx0 : (s.cpus c).x 0 = home.slot) (hx1 : (s.cpus c).x 1 = home'.slot)
    (hroom : ∀ a, InSpan (contextOf (s.cpus c)).base sizeofSavedFrame a →
      InSpan home.stack kStackSize a)
    (hreturns : steps image.prog contextSwitch.length (s.cpus c, s.mem) =
      some (cpu, mem)) :
    Inv image
      (past ++ [.call prev (contextOf (s.cpus c)), .resume next cpu])
      { s with
        cpus := Function.update s.cpus c cpu
        mem := mem
        running := Function.update s.running c (some next) } := by
  obtain ⟨rfl, hback⟩ := switch_steps hcalled hreturns
  have hself : Holds (saved (s.cpus c) s.mem) home.slot
      (contextOf (s.cpus c)) := by
    rw [← hx0]
    refine saved_holds s.mem fun hin => h.own hhome ?_
    rw [← hx0]
    exact hroom _ hin
  have hothers : ∀ {t home₁}, s.Waits t home₁ →
      ∃ e ctx, lastOf t past = some e ∧ e.Leaves image home₁ ctx ∧
        Holds (saved (s.cpus c) s.mem) home₁.slot ctx ∧
        ∀ a, InSpan ctx.base sizeofSavedFrame a →
          InSpan home₁.stack kStackSize a := by
    intro t home₁ hwaits₁
    have hne : t ≠ prev := by
      rintro rfl
      exact hwaits₁.2 c hruns
    have hap := h.apart hhome hwaits₁.1 hne.symm
    refine h.waits_congr hwaits₁ (saved_of_ne ?_ ?_) fun a ha =>
      saved_of_ne ?_ ?_
    · rw [hx0]
      exact hap.slots.symm
    · exact fun hin => hap.right (hroom _ hin)
    · rw [hx0]
      rintro rfl
      exact hap.left ha
    · exact fun hin => hap.disjoint a (hroom _ hin) ha
  have hlaw : History.Along (Law image)
      (past ++ [.call prev (contextOf (s.cpus c)), .resume next cpu]) := by
    have hcall : History.Along (Law image)
        (past ++ [.call prev (contextOf (s.cpus c))]) := h.law.concat trivial
    rw [List.append_cons]
    refine hcall.concat ?_
    by_cases heq : next = prev
    · subst heq
      cases hhome.symm.trans hhome'
      obtain ⟨hctx, hpc⟩ := hback _ (hx1 ▸ hself)
      have hleaves : (Event.call next (contextOf (s.cpus c))).Leaves image home
          (contextOf (s.cpus c)) := rfl
      exact law_of_leaves (lastOf_concat_self past _ rfl) hleaves
        (h.aligned hhome) hctx hpc
    · have hidle := hwaits.resolve_left heq
      obtain ⟨e, ctx, hlast, hleaves, hholds, -⟩ := hothers ⟨hhome', hidle⟩
      obtain ⟨hctx, hpc⟩ := hback ctx (hx1 ▸ hholds)
      rw [← lastOf_concat_of_ne past (.call prev (contextOf (s.cpus c)))
        (Ne.symm heq)] at hlast
      exact law_of_leaves hlast hleaves (h.aligned hhome') hctx hpc
  refine ⟨once_update h ?_, h.aligned, h.own, h.apart, ?_, hlaw⟩
  · intro c' hne hc'
    rcases hwaits with rfl | hidle
    · exact hne (h.once hc' hruns)
    · exact hidle c' hc'
  · intro t home₁ hwaits₁
    obtain ⟨hne, hold⟩ := waits_cases hwaits₁
    rw [List.append_cons, lastOf_concat_of_ne _ _ (Ne.symm hne)]
    rcases hold with hprev | hold
    · cases hruns.symm.trans hprev
      cases hhome.symm.trans hwaits₁.1
      exact ⟨.call prev (contextOf (s.cpus c)), contextOf (s.cpus c),
        lastOf_concat_self past _ rfl, rfl, hself, hroom⟩
    · have hne' : prev ≠ t := by
        rintro rfl
        exact hold.2 c hruns
      rw [lastOf_concat_of_ne past (.call prev (contextOf (s.cpus c))) hne']
      exact hothers hold

theorem Inv.first (h : Inv image past s) {c : Core} {next : Thread}
    {home : Home} {cpu : Cpu} {mem : Mem} (hwaits : s.Waits next home)
    (hruns : s.running c = none)
    (hcalled : (s.cpus c).pc = image.switchAddr)
    (hx1 : (s.cpus c).x 1 = home.slot)
    (hscratch : ¬ s.Protected ((s.cpus c).x 0))
    (hroom : ∀ a, InSpan (contextOf (s.cpus c)).base sizeofSavedFrame a →
      ¬ s.Protected a)
    (hreturns : steps image.prog contextSwitch.length (s.cpus c, s.mem) =
      some (cpu, mem)) :
    Inv image (past ++ [.resume next cpu])
      { s with
        cpus := Function.update s.cpus c cpu
        mem := mem
        running := Function.update s.running c (some next) } := by
  obtain ⟨rfl, hback⟩ := switch_steps hcalled hreturns
  have hsaved : Inv image past
      { s with
        cpus := Function.update s.cpus c cpu
        mem := saved (s.cpus c) s.mem } := by
    refine h.work c cpu fun a ha => saved_of_ne ?_ fun hin => hroom a hin ha
    rintro rfl
    exact hscratch ha
  obtain ⟨e, ctx, hlast, hleaves, hholds, -⟩ := hsaved.waits hwaits
  obtain ⟨hctx, hpc⟩ := hback ctx (hx1 ▸ hholds)
  have hlaw := law_of_leaves hlast hleaves (h.aligned hwaits.1) hctx hpc
  refine ⟨once_update h fun c' _ => hwaits.2 c', h.aligned, h.own, h.apart, ?_,
    h.law.concat hlaw⟩
  intro t home₁ hwaits₁
  obtain ⟨hne, hold⟩ := waits_cases hwaits₁
  rw [lastOf_concat_of_ne _ _ (Ne.symm hne)]
  rcases hold with hprev | hold
  · rw [hruns] at hprev
    cases hprev
  · exact hsaved.waits hold

theorem Inv.step (h : Inv image past s) {events : List (Event Thread)}
    (hstep : Step image s events s') : Inv image (past ++ events) s' := by
  cases hstep with
  | work c cpu hkeeps =>
      rw [List.append_nil]
      exact h.work c cpu hkeeps
  | make maker _ _ hstack hown hapart => exact h.make maker hstack hown hapart
  | reap _ =>
      rw [List.append_nil]
      exact h.reap
  | switch hruns hhome hhome' hwaits hcalled hx0 hx1 hroom hreturns =>
      exact h.switch hruns hhome hhome' hwaits hcalled hx0 hx1 hroom hreturns
  | first hruns hwaits hcalled hx1 hscratch hroom hreturns =>
      exact h.first hwaits hruns hcalled hx1 hscratch hroom hreturns

theorem Run.inv (h : Run image past s) : Inv image past s := by
  induction h with
  | start cpus mem =>
      refine ⟨nofun, nofun, nofun, nofun, ?_, History.along_nil⟩
      rintro t home ⟨hhome, -⟩
      cases hhome
  | step _ hstep ih => exact ih.step hstep

/-- A stack pointer with room below it in the stack. -/
theorem Context.within_stack {ctx : Context} {stack : Word}
    (hlo : stack.toNat + sizeofSavedFrame ≤ ctx.sp.toNat)
    (hhi : ctx.sp.toNat ≤ stack.toNat + kStackSize) (a : Word)
    (h : InSpan ctx.base sizeofSavedFrame a) : InSpan stack kStackSize a := by
  unfold InSpan Context.base sizeofSavedFrame kStackSize at *
  bv_omega

theorem Image.exists_returns (image : Image) {cpu : Cpu}
    (hcalled : cpu.pc = image.switchAddr) (m : Mem) :
    ∃ cpu' m', steps image.prog contextSwitch.length (cpu, m) =
      some (cpu', m') := by
  have hlocated : Located image.prog (cpu, m).1.pc contextSwitch :=
    hcalled ▸ image.switch_located
  exact ⟨_, _, steps_of_located hlocated contextSwitch_straight⟩

/-- A running thread may get to a call of `context_switch` with any context
that lies in its stack, and goes over to any thread that waits. -/
theorem Run.suspend (h : Run image past s) {c : Core} {prev next : Thread}
    {home home' : Home} {cpu : Cpu} (hruns : s.running c = some prev)
    (hhome : s.home prev = some home) (hhome' : s.home next = some home')
    (hwaits : ∀ c, s.running c ≠ some next)
    (hcalled : cpu.pc = image.switchAddr) (hx0 : cpu.x 0 = home.slot)
    (hx1 : cpu.x 1 = home'.slot)
    (hroom : ∀ a, InSpan (contextOf cpu).base sizeofSavedFrame a →
      InSpan home.stack kStackSize a) :
    ∃ cpu' s', Run image
        (past ++ [.call prev (contextOf cpu), .resume next cpu']) s' ∧
      s'.home = s.home ∧
      s'.running = Function.update s.running c (some next) := by
  obtain ⟨s₁, hworks, rfl, hhomes, hrunning⟩ : ∃ s₁, Run image past s₁ ∧
      s₁.cpus c = cpu ∧ s₁.home = s.home ∧ s₁.running = s.running := by
    have hworks := h.step (.work c cpu fun _ _ => rfl)
    rw [List.append_nil] at hworks
    exact ⟨_, hworks, Function.update_self .., rfl, rfl⟩
  rw [← hrunning] at hruns hwaits
  rw [← hhomes] at hhome hhome'
  obtain ⟨cpu', m', hreturns⟩ := image.exists_returns hcalled s₁.mem
  have hstep := hworks.step (.switch hruns hhome hhome' (.inr hwaits) hcalled
    hx0 hx1 hroom hreturns)
  exact ⟨cpu', _, hstep, hhomes, by rw [hrunning]⟩

/-- In every run, whoever `context_switch` resumes has the `x19` to `x30` and
`sp` with which it called, and goes on behind the call; and a thread that
`make_thread_tcb(func)` has built enters `thread_entry` with `func` in `x0` and
an aligned `sp` at the top of its stack. -/
theorem run_restores_contexts (h : Run image past s) :
    History.Along (Law image) past :=
  h.inv.law

/-- `context_switch` at 0, `thread_trampoline` and `thread_entry` behind it. -/
def sampleImage : Image where
  prog a :=
    if a.toNat < 4096 then contextSwitch[a.toNat / 4]?
    else (threadTrampoline 8192)[(a.toNat - 4096) / 4]?
  switchAddr := 0
  trampolineAddr := 4096
  threadEntry := 8192
  switch_located := ⟨rfl, rfl, rfl, rfl, rfl, rfl, rfl, rfl, rfl, rfl, rfl, rfl,
    rfl, rfl, rfl, rfl, rfl, trivial⟩
  trampoline_located := ⟨rfl, rfl, trivial⟩

/-- A heap from 1 MiB on, whose first two blocks are stacks. -/
def sampleHeap : Heap.Arena := ⟨1048576, by decide, by decide, by decide⟩

theorem sampleHeap_stacks : StackAlloc 1048592 ∧ StackAlloc 1114160 := by
  have hfits : Heap.Fits kStackSize := by
    unfold Heap.Fits kStackSize
    omega
  have hneeded : Heap.neededFor kStackSize = 65568 := Heap.neededFor_eq hfits
  have hinit : Heap.Tiled sampleHeap (Heap.init sampleHeap fun _ => 0)
      ([] ++ [⟨Heap.kArenaSize, false⟩] ++ []) := Heap.init_tiled sampleHeap _
  obtain ⟨new, htiled, -, hnew⟩ := Heap.carve_spec hinit
    (show 65568 ≤ Heap.kArenaSize by decide) (by decide) (by decide)
  obtain rfl : new = [⟨65568, true⟩, ⟨Heap.kArenaSize - 65568, false⟩] :=
    (hnew.resolve_right fun hwhole => absurd hwhole.1 (by decide)).2
  have hone := Heap.malloc_eq hinit (show kStackSize ≠ 0 by decide)
  have htwo := Heap.malloc_eq htiled (show kStackSize ≠ 0 by decide)
  have hfirst : Tiling.firstFit 65568
      ([] ++ [⟨Heap.kArenaSize, false⟩] ++ []) = some 0 := by decide
  have hfirst' : Tiling.firstFit 65568
      ([] ++ [⟨65568, true⟩, ⟨Heap.kArenaSize - 65568, false⟩] ++ []) =
        some 65568 := by decide
  rw [hneeded, hfirst] at hone
  rw [hneeded, hfirst'] at htwo
  have hreach := (Heap.Reachable.init _).step
    (Heap.Step.malloc (s := ⟨_, []⟩) hfits hone)
  have hreach' := hreach.step (Heap.Step.malloc (s := ⟨_, _⟩) hfits htwo)
  have hptr : Heap.payloadOf (sampleHeap.base + 0) = 1048592 :=
    Heap.add64_eq (by decide)
  have hptr' : Heap.payloadOf (sampleHeap.base + 65568) = 1114160 :=
    Heap.add64_eq (by decide)
  rw [hptr, hptr'] at hreach'
  exact ⟨⟨sampleHeap, _, 1048592, hreach', by simp, rfl⟩,
    ⟨sampleHeap, _, 1114160, hreach', by simp, rfl⟩⟩

def sampleHome : Bool → Home
  | false => ⟨1048592, 32768⟩
  | true => ⟨1114160, 36864⟩

theorem sampleHome_apart : Apart (sampleHome true) (sampleHome false) := by
  refine ⟨fun a ha ha' => ?_, by decide, by decide, by decide⟩
  unfold sampleHome InSpan kStackSize at ha ha'
  simp only at ha ha'
  bv_omega

/-- A call of `context_switch` through two slots, which returns to `x30`. -/
def sampleCall (slot slot' sp x30 : Word) : Cpu where
  x r := if r = 0 then slot else if r = 1 then slot' else
    if r = 30 then x30 else 7
  sp := sp
  pc := 0

/-- Two threads are made, and the boot code, whose stack ends at 48 KiB,
enters the first one. -/
theorem sampleHome_boots :
    ∃ (boot : Cpu) (s : System Unit Bool),
      Run sampleImage
        [.make false (sampleHome false) (.threadTcb 12288),
          .make true (sampleHome true) (.threadTcb 16384),
          .resume false boot] s ∧
      (∀ t, s.home t = some (sampleHome t)) ∧ s.running () = some false := by
  let start : System Unit Bool :=
    ⟨fun _ => sampleCall 49152 32768 49152 64, fun _ => 0, fun _ => none,
      fun _ => none⟩
  let one : System Unit Bool :=
    { start with
      mem := Maker.make sampleImage (sampleHome false) start.mem
        (.threadTcb 12288)
      home := Function.update start.home false (some (sampleHome false)) }
  let two : System Unit Bool :=
    { one with
      mem := Maker.make sampleImage (sampleHome true) one.mem
        (.threadTcb 16384)
      home := Function.update one.home true (some (sampleHome true)) }
  have hone : Run sampleImage _ one := (Run.start _ _).step
    (.make (.threadTcb 12288) rfl nofun sampleHeap_stacks.1 (by decide) nofun)
  have hapart : ∀ t home, one.home t = some home →
      Apart (sampleHome true) home := by
    intro t home hhome
    cases t <;> cases hhome
    exact sampleHome_apart
  have htwo : Run sampleImage _ two := hone.step
    (.make (.threadTcb 16384) rfl nofun sampleHeap_stacks.2 (by decide) hapart)
  have hhome : ∀ t, two.home t = some (sampleHome t) := by
    intro t
    cases t <;> rfl
  have hprotected : ∀ a, two.Protected a →
      a = 32768 ∨ a = 36864 ∨ 1048592 ≤ a.toNat := by
    intro a hprot
    obtain ⟨t, home, hsome, ha⟩ := htwo.inv.protected_within hprot
    cases (hhome t).symm.trans hsome
    unfold InSpan kStackSize at ha
    cases t <;> simp only [sampleHome] at ha <;> bv_omega
  have hroom : ∀ a, InSpan (contextOf (sampleCall 49152 32768 49152 64)).base
      sizeofSavedFrame a → ¬ two.Protected a := by
    intro a hin hprot
    have hcases := hprotected a hprot
    have hbase : (contextOf (sampleCall 49152 32768 49152 64)).base = 49056 :=
      rfl
    rw [hbase] at hin
    unfold InSpan sizeofSavedFrame at hin
    bv_omega
  obtain ⟨boot, m, hreturns⟩ := sampleImage.exists_returns
    (show (sampleCall 49152 32768 49152 64).pc = 0 from rfl) two.mem
  have hwaits : two.Waits false (sampleHome false) := ⟨rfl, nofun⟩
  exact ⟨boot, _, htwo.step (.first (c := ()) rfl hwaits rfl rfl
    (fun hprot => absurd (hprotected _ hprot) (by decide)) hroom hreturns),
    hhome, rfl⟩

/-- The first thread goes over to the second one, which starts, and comes back
from it to where it was. -/
theorem run_restores_contexts_resumed :
    ∃ (boot entry back : Cpu) (s : System Unit Bool),
      Run sampleImage
        [.make false (sampleHome false) (.threadTcb 12288),
          .make true (sampleHome true) (.threadTcb 16384),
          .resume false boot,
          .call false (contextOf (sampleCall 32768 36864 1110000 12320)),
          .resume true entry,
          .call true (contextOf (sampleCall 36864 32768 1170000 16480)),
          .resume false back] s ∧
      (∀ m, ∃ cpu', steps sampleImage.prog 2 (entry, m) = some (cpu', m) ∧
        cpu'.pc = 8192 ∧ cpu'.x 0 = 16384 ∧ cpu'.sp = 1179696) ∧
      contextOf back = contextOf (sampleCall 32768 36864 1110000 12320) ∧
      back.pc = 12320 := by
  obtain ⟨boot, s, hboot, hhome, hruns⟩ := sampleHome_boots
  have hidle : ∀ c, s.running c ≠ some true := by
    rintro ⟨⟩ htrue
    rw [hruns] at htrue
    cases htrue
  obtain ⟨entry, s₁, hentry, hhome₁, hruns₁⟩ := hboot.suspend hruns
    (hhome false) (hhome true) hidle
    (show (sampleCall 32768 36864 1110000 12320).pc = 0 from rfl) rfl rfl
    (Context.within_stack (by decide) (by decide))
  rw [← hhome₁] at hhome
  have hruns' : s₁.running () = some true := by
    rw [hruns₁, Function.update_self]
  have hidle₁ : ∀ c, s₁.running c ≠ some false := by
    rintro ⟨⟩ hfalse
    rw [hruns'] at hfalse
    cases hfalse
  obtain ⟨back, s₂, hback, -⟩ := hentry.suspend hruns' (hhome true)
    (hhome false) hidle₁
    (show (sampleCall 36864 32768 1170000 16480).pc = 0 from rfl) rfl rfl
    (Context.within_stack (by decide) (by decide))
  have hlaw := run_restores_contexts hback
  refine ⟨boot, entry, back, s₂, hback, fun m => ?_, ?_⟩
  · obtain ⟨cpu', hsteps, hpc, hx0, hsp, -⟩ :=
      hlaw [_, _, _, _] (.resume true entry) [_, _] rfl m
    exact ⟨cpu', hsteps, hpc, hx0, hsp⟩
  · exact hlaw [_, _, _, _, _, _] (.resume false back) [] rfl

end ContextSwitch

end IntroOs
