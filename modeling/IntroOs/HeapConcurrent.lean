/-
The heap on any number of cores.  Calls of `malloc` and `free` spin on
`g_lock` and then make their accesses one by one, while other cores write into
the blocks they own.  Every run of this machine refines a run of the heap in
which each call is a single step.
-/
import IntroOs.HeapClient
import IntroOs.HeapSections
import IntroOs.Monitor

namespace IntroOs

namespace Heap

namespace Concurrent

open ByteMem Tiling
open Interact (Prog)

inductive Call where
  | malloc (size : Nat)
  | free (ptr : Option Nat)
deriving DecidableEq, Repr

/-- The memory, the blocks that clients may use, and those that have been
given to a `free` that is not done. -/
structure Shared (Core : Type) where
  mem : Mem
  owned : List Alloc
  given : List (Core × Alloc)

/-- What is left to do of a call behind the lock. -/
structure Place where
  call : Call
  code : Section (Option (Option Nat))

variable {Core : Type}

instance decidableFits (size : Nat) : Decidable (Fits size) :=
  inferInstanceAs (Decidable (_ ≤ _))

/-- A call up to its lock.  A client frees a block that it owns, and cannot
use it from then on. -/
def start (c : Core) : Call → Shared Core →
    Option (Option (Option Nat) × Shared Core)
  | .malloc size, s =>
      if size = 0 then some (some none, s)
      else if Fits size then some (none, s)
      else none
  | .free none, s => some (some none, s)
  | .free (some ptr), s =>
      (s.owned.find? fun a => a.ptr = ptr).map fun a =>
        (none, { s with owned := s.owned.erase a, given := (c, a) :: s.given })

/-- The code of a call behind its lock. -/
def body (A : Arena) : Call → Section (Option (Option Nat))
  | .malloc size => Section.malloc A size
  | .free ptr => do
      Section.free A (ptr.getD 0)
      return some none

/-- What a call that returns changes for the clients. -/
def Shared.finish (s : Shared Core) : Call → Option Nat → Shared Core
  | .malloc size, some ptr => { s with owned := ⟨ptr, size⟩ :: s.owned }
  | .malloc _, none => s
  | .free ptr, _ =>
      { s with given := s.given.filter fun g => some g.2.ptr ≠ ptr }

def step (place : Place) (s : Shared Core) :
    (Place ⊕ Option Nat) × Shared Core :=
  match place.code.step access s.mem with
  | (.inl code, m) => (.inl { place with code := code }, { s with mem := m })
  | (.inr result, m) =>
      (.inr (result.getD none),
        { s with mem := m }.finish place.call (result.getD none))

/-- A client writes a byte of a block that it owns. -/
def write (x : Nat) (value : UInt8) (s : Shared Core) :
    Option (Shared Core) :=
  if s.owned.any fun a => a.ptr ≤ x ∧ x < a.ptr + a.size then
    some { s with mem := Function.update s.mem x value }
  else none

/-- The heap as its callers see it. -/
def heap (Core : Type) (A : Arena) :
    Monitor.Object Core Call (Option Nat) Place (Shared Core) (Nat × UInt8) where
  start := start
  enter call _ := ⟨call, body A call⟩
  step _ := step
  move byte := write byte.1 byte.2

/-- The allocations that exist for the clients. -/
def Shared.held (s : Shared Core) : List Alloc :=
  s.owned ++ s.given.map Prod.snd

/-- An access that leaves the blocks of the clients alone. -/
def Spares (owned : List Alloc) (req : Access) : Prop :=
  ∀ a : { a // a ∈ owned }, ∀ x : { x // a.1.ptr ≤ x ∧ x < a.1.ptr + a.1.size },
    req.Avoids x.1

/-- The argument of a call that has got to the lock. -/
def Waits (c : Core) (s : Shared Core) : Call → Prop
  | .malloc size => size ≠ 0 ∧ Fits size
  | .free none => False
  | .free (some ptr) => ∃ a, (c, a) ∈ s.given ∧ a.ptr = ptr

/-- The section would end in a state of the heap in which its call is one
step, and leaves the blocks of the clients alone. -/
structure Busy (A : Arena) (c : Core) (call : Call) (place : Place)
    (s : Shared Core) : Prop where
  call_eq : place.call = call
  waits : Waits c s call
  distinct : (s.held.map Alloc.ptr).Nodup
  ends : ∃ result m live, place.code.run access s.mem = (some result, m) ∧
    Reachable A ⟨m, live⟩ ∧ live.Perm (s.finish call result).held
  spares : place.code.Only access (Spares s.owned) s.mem

def assertions (Core : Type) (A : Arena) :
    Monitor.Assertions Core Call (Option Nat) Place (Shared Core) where
  isFree _ s := ∃ live, Reachable A ⟨s.mem, live⟩ ∧ live.Perm s.held
  waits c call s := Waits c s call
  busy _ c call place s := Busy A c call place s

section Accesses

variable {x : Nat} {req : Access}

/-- A write to a byte that an access does not touch might as well come behind
it. -/
theorem access_update (h : req.Avoids x) (value : UInt8) (m : Mem) :
    access req (Function.update m x value) =
      ((access req m).1, Function.update (access req m).2 x value) := by
  cases req with
  | load a =>
      have hload : ByteMem.load (Function.update m x value) a 8 =
          ByteMem.load m a 8 := by
        refine load_congr fun y hlo hhi => Function.update_of_ne ?_ _ _
        rcases h with h | h <;> simp only [Access.addr] at h <;> omega
      simp only [access, hload]
  | store a v =>
      have hstore : ByteMem.store (Function.update m x value) a 8 v =
          Function.update (ByteMem.store m a 8 v) x value := by
        funext y
        by_cases hy : y = x
        · subst hy
          rw [Function.update_self, ByteMem.store, if_neg ?_,
            Function.update_self]
          rcases h with h | h <;> simp only [Access.addr] at h <;> omega
        · simp only [ByteMem.store, Function.update_of_ne hy]
      simp only [access, hstore]

theorem access_apply (h : req.Avoids x) (m : Mem) : (access req m).2 x = m x := by
  cases req with
  | load a => rfl
  | store a v =>
      refine store_eqOutside m a 8 v x ?_
      rcases h with h | h <;> simp only [Access.addr] at h <;> omega

end Accesses

variable {A : Arena} {s s' : Shared Core} {c c' : Core} {call call' : Call}
  {place place' : Place} {result : Option Nat} {live : List Alloc}

theorem nodup_of_perm {m : Mem} (h : Reachable A ⟨m, live⟩)
    (hperm : live.Perm s.held) : (s.held.map Alloc.ptr).Nodup := by
  obtain ⟨segs, hinv⟩ := h.inv
  exact (hperm.map Alloc.ptr).nodup_iff.mp hinv.nodup

/-- A client may write what it owns. -/
theorem reachable_write {m : Mem} (h : Reachable A ⟨m, live⟩) {a : Alloc}
    (ha : a ∈ live) {x : Nat} (hlo : a.ptr ≤ x) (hhi : x < a.ptr + a.size)
    (value : UInt8) : Reachable A ⟨Function.update m x value, live⟩ := by
  obtain ⟨segs, hinv⟩ := h.inv
  have hroom := hinv.clientView.within_payload a ha
  exact h.step (.write ha hlo (lt_of_lt_of_le hhi hroom))

theorem mem_held_of_owned {a : Alloc} (h : a ∈ s.owned) : a ∈ s.held :=
  List.mem_append_left _ h

theorem mem_finish (s : Shared Core) (call : Call) (result : Option Nat) :
    (s.finish call result).mem = s.mem := by
  cases call <;> cases result <;> rfl

theorem owned_finish {a : Alloc} (h : a ∈ s.owned) (call : Call)
    (result : Option Nat) : a ∈ (s.finish call result).owned := by
  cases call with
  | malloc size =>
      cases result with
      | none => exact h
      | some ptr => exact List.mem_cons_of_mem _ h
  | free ptr => exact h

/-- A `free` that gets to the lock has taken a block from its client. -/
theorem start_free {ptr : Nat} (h : start c (.free (some ptr)) s = some (none, s')) :
    ∃ a ∈ s.owned, a.ptr = ptr ∧
      s' = { s with owned := s.owned.erase a, given := (c, a) :: s.given } := by
  obtain ⟨a, hfind, heq⟩ := Option.map_eq_some_iff.mp h
  cases heq
  have hptr := List.find?_some hfind
  exact ⟨a, List.mem_of_find?_eq_some hfind, by simpa using hptr, rfl⟩

/-- Giving a block to `free` keeps the allocations together. -/
theorem held_give {a : Alloc} (ha : a ∈ s.owned) (c : Core) :
    (Shared.held { s with owned := s.owned.erase a
                          given := (c, a) :: s.given }).Perm s.held := by
  refine List.perm_middle.trans ?_
  rw [← List.cons_append]
  exact (List.perm_cons_erase ha).symm.append_right _

/-- The body of `malloc` on a reachable heap. -/
theorem busy_malloc {size : Nat} (hreach : Reachable A ⟨s.mem, live⟩)
    (hperm : live.Perm s.held) (hsize : size ≠ 0) (hfits : Fits size) :
    Busy A c (.malloc size) ⟨.malloc size, body A (.malloc size)⟩ s := by
  obtain ⟨segs, hinv⟩ := hreach.inv
  obtain ⟨⟨m, result⟩, hmalloc⟩ :=
    Option.isSome_iff_exists.mp (hinv.tiled.malloc_isSome size)
  refine ⟨rfl, ⟨hsize, hfits⟩, nodup_of_perm hreach hperm,
    ⟨result, m, _, ?_, hreach.step (.malloc hfits hmalloc), ?_⟩, ?_⟩
  · rw [body, run_malloc A s.mem hsize, hmalloc]
    rfl
  · cases result with
    | none => exact hperm
    | some ptr => exact hperm.cons _
  · refine Prog.only_forall fun a => Prog.only_forall fun x => ?_
    have ha : a.1 ∈ live := hperm.mem_iff.mpr (mem_held_of_owned a.2)
    obtain ⟨block, hblock, hptr, hroom⟩ := hinv.exists_block ha
    have hx := x.2
    rw [ptrOf] at hptr
    exact hinv.tiled.only_malloc hblock (by omega) (by omega) hfits

/-- The blocks that are owned are not the one that is freed. -/
theorem ptr_ne_of_given {a b : Alloc} (hnodup : (s.held.map Alloc.ptr).Nodup)
    (ha : a ∈ s.owned) (hb : (c, b) ∈ s.given) : a.ptr ≠ b.ptr := by
  rw [Shared.held, List.map_append, List.nodup_append] at hnodup
  refine hnodup.2.2 _ (List.mem_map_of_mem ha) _ (List.mem_map_of_mem ?_)
  exact List.mem_map.mpr ⟨(c, b), hb, rfl⟩

/-- What is held once a block is freed. -/
theorem held_free {b : Alloc} (hnodup : (s.held.map Alloc.ptr).Nodup)
    (hb : (c, b) ∈ s.given) :
    (s.finish (.free (some b.ptr)) none).held =
      s.held.filter fun a => a.ptr ≠ b.ptr := by
  have howned : s.owned.filter (fun a => a.ptr ≠ b.ptr) = s.owned := by
    rw [List.filter_eq_self]
    intro a ha
    simpa using ptr_ne_of_given hnodup ha hb
  rw [Shared.held, Shared.held, List.filter_append, howned, List.filter_map]
  simp only [Shared.finish, ne_eq, Option.some.injEq]
  rfl

/-- The body of `free` on a reachable heap. -/
theorem busy_free {b : Alloc} (hreach : Reachable A ⟨s.mem, live⟩)
    (hperm : live.Perm s.held) (hb : (c, b) ∈ s.given) :
    Busy A c (.free (some b.ptr))
      ⟨.free (some b.ptr), body A (.free (some b.ptr))⟩ s := by
  obtain ⟨segs, hinv⟩ := hreach.inv
  have hnodup := nodup_of_perm hreach hperm
  have hlive : b ∈ live := by
    refine hperm.mem_iff.mpr (List.mem_append_right _ ?_)
    exact List.mem_map.mpr ⟨(c, b), hb, rfl⟩
  obtain ⟨freed, hfreed, hptr, -⟩ := hinv.exists_block hlive
  obtain ⟨hplace, hused⟩ := mem_live.mp hfreed
  refine ⟨rfl, ⟨b, hb, rfl⟩, hnodup,
    ⟨none, _, _, ?_, hreach.step (.free hlive), ?_⟩, ?_⟩
  · simp [body, run_free]
  · rw [held_free hnodup hb]
    exact hperm.filter _
  · refine Prog.only_forall fun a => Prog.only_forall fun x => ?_
    have ha : a.1 ∈ live := hperm.mem_iff.mpr (mem_held_of_owned a.2)
    obtain ⟨own, hown, hptrOwn, hroom⟩ := hinv.exists_block ha
    have hx := x.2
    have huntagged : Untagged A x.1 segs := by
      intro block hblock
      rw [ptrOf] at hptrOwn
      have hclear := hinv.tiled.clear_of_payload (mem_live.mp hown).1 hblock
        (x := x.1) (by omega) (by omega)
      exact ⟨hclear.1, hclear.2.1⟩
    obtain ⟨pre, post, rfl, hoffset⟩ := exists_split_of_mem_place hplace
    rw [hused] at hinv huntagged
    have honly := hinv.tiled.only_free huntagged
    rw [ptrOf, hoffset, Nat.zero_add] at hptr
    rw [body, Option.getD_some, hptr, Prog.only_bind]
    exact ⟨honly, Prog.only_pure ..⟩

/-- No step of the section changes a byte of a block that is owned. -/
theorem Busy.step_apply (h : Busy A c call place s)
    {next : Place ⊕ Option Nat} (hstep : step place s = (next, s')) {a : Alloc}
    (ha : a ∈ s.owned) {x : Nat} (hlo : a.ptr ≤ x)
    (hhi : x < a.ptr + a.size) : s'.mem x = s.mem x := by
  have hspares := h.spares
  rw [step] at hstep
  cases hcode : place.code with
  | ret result =>
      rw [hcode] at hstep
      cases hstep
      exact congrFun (mem_finish ..) x
  | act req code =>
      rw [hcode] at hstep hspares
      cases hstep
      exact access_apply (hspares.1 ⟨a, ha⟩ ⟨x, hlo, hhi⟩) s.mem

/-- A step inside the section. -/
theorem Busy.goesOn (h : Busy A c call place s)
    (hstep : step place s = (.inl place', s')) :
    Busy A c call place' s' ∧ s'.given = s.given := by
  obtain ⟨result, m, live, hrun, hreach, hperm⟩ := h.ends
  rw [step] at hstep
  split at hstep
  · next code m' hcode =>
    cases hstep
    refine ⟨⟨h.call_eq, h.waits, h.distinct, ⟨result, m, live, ?_, hreach, ?_⟩,
      h.spares.goesOn hcode⟩, rfl⟩
    · exact (Prog.run_of_goesOn hcode).trans hrun
    · cases call <;> cases result <;> exact hperm
  · cases hstep

/-- The section returns to a heap in which its call was one step. -/
theorem Busy.returns (h : Busy A c call place s)
    (hstep : step place s = (.inr result, s')) :
    ∃ m live, s' = Shared.finish { s with mem := m } call result ∧
      Reachable A ⟨m, live⟩ ∧ live.Perm s'.held := by
  obtain ⟨result', m, live, hrun, hreach, hperm⟩ := h.ends
  rw [step] at hstep
  split at hstep
  · cases hstep
  · next returned m' hcode =>
    have heq := (Prog.run_of_returns hcode).symm.trans hrun
    cases heq
    cases hstep
    refine ⟨m, live, ?_, hreach, ?_⟩
    · rw [h.call_eq]
    · rw [h.call_eq]
      cases call <;> cases result' <;> exact hperm

theorem write_eq {x : Nat} {value : UInt8} (h : write x value s = some s') :
    ∃ a ∈ s.owned, (a.ptr ≤ x ∧ x < a.ptr + a.size) ∧
      s' = { s with mem := Function.update s.mem x value } := by
  rw [write] at h
  split at h
  · next hany =>
    cases h
    obtain ⟨a, ha, hx⟩ := List.any_eq_true.mp hany
    exact ⟨a, ha, by simpa using hx, rfl⟩
  · cases h

/-- A client writes a byte of a block while the section is under way. -/
theorem Busy.write {x : Nat} {value : UInt8} (h : Busy A c call place s)
    (hwrite : write x value s = some s') : Busy A c call place s' := by
  obtain ⟨a, ha, hx, rfl⟩ := write_eq hwrite
  obtain ⟨result, m, live, hrun, hreach, hperm⟩ := h.ends
  have hcomm := h.spares.run_comm (Function.update · x value)
    fun req m hspares => access_update (hspares ⟨a, ha⟩ ⟨x, hx⟩) value m
  have hlive : a ∈ live :=
    hperm.mem_iff.mpr (mem_held_of_owned (owned_finish ha call result))
  refine ⟨h.call_eq, h.waits, h.distinct, ⟨result, _, live, ?_,
    reachable_write hreach hlive hx.1 hx.2 value, ?_⟩, hcomm.2⟩
  · rw [hcomm.1, hrun]
  · cases call <;> cases result <;> exact hperm

/-- Another client gives a block to `free` while the section is under way. -/
theorem Busy.give (h : Busy A c call place s) {a : Alloc} (ha : a ∈ s.owned)
    (c' : Core) :
    Busy A c call place { s with owned := s.owned.erase a
                                 given := (c', a) :: s.given } := by
  obtain ⟨result, m, live, hrun, hreach, hperm⟩ := h.ends
  have hwaits : Waits c { s with owned := s.owned.erase a
                                 given := (c', a) :: s.given } call := by
    cases call with
    | malloc size => exact h.waits
    | free ptr =>
        cases ptr with
        | none => exact h.waits
        | some ptr =>
            obtain ⟨b, hb, hptr⟩ := h.waits
            exact ⟨b, List.mem_cons_of_mem _ hb, hptr⟩
  refine ⟨h.call_eq, hwaits, ?_, ⟨result, m, live, hrun, hreach,
    hperm.trans ?_⟩, h.spares.mono ?_⟩
  · exact ((held_give ha c').map Alloc.ptr).nodup_iff.mpr h.distinct
  · cases call with
    | malloc size =>
        cases result with
        | none => exact (held_give ha c').symm
        | some ptr => exact (held_give ha c').symm.cons _
    | free ptr =>
        cases ptr with
        | none => exact absurd h.waits id
        | some ptr =>
            obtain ⟨b, hb, rfl⟩ := h.waits
            have hne := ptr_ne_of_given h.distinct ha hb
            have hgive := held_give (s := s.finish (.free (some b.ptr)) result)
              (owned_finish ha _ _) c'
            simp only [Shared.finish, Shared.held, ne_eq, Option.some.injEq]
              at hgive ⊢
            rw [List.filter_cons_of_pos (by simpa using hne)]
            exact hgive.symm
  · intro req hspares b x
    exact hspares ⟨b.1, List.mem_of_mem_erase b.2⟩ x

theorem waits_kept_of_given (h : ∀ g ∈ s.given, g ∈ s'.given) {c : Core}
    {call : Call} (hwaits : Waits c s call) : Waits c s' call := by
  cases call with
  | malloc size => exact hwaits
  | free ptr =>
      cases ptr with
      | none => exact hwaits
      | some ptr =>
          obtain ⟨b, hb, hptr⟩ := hwaits
          exact ⟨b, h _ hb, hptr⟩

/-- Two frees under way are of different blocks. -/
theorem given_inj (hnodup : (s.held.map Alloc.ptr).Nodup) {a b : Alloc}
    (ha : (c, a) ∈ s.given) (hb : (c', b) ∈ s.given) (heq : a.ptr = b.ptr) :
    c = c' := by
  rw [Shared.held, List.map_append, List.nodup_append, List.map_map] at hnodup
  have hpair := List.inj_on_of_nodup_map hnodup.2.1 ha hb heq
  exact congrArg Prod.fst hpair

/-- A call that returns leaves the others their blocks. -/
theorem waits_kept_of_finish (hnodup : (s.held.map Alloc.ptr).Nodup)
    (hwaits : Waits c s call) (hne : c' ≠ c) (hother : Waits c' s call') (m : Mem)
    (result : Option Nat) :
    Waits c' (Shared.finish { s with mem := m } call result) call' := by
  cases call with
  | malloc size =>
      cases result with
      | none => exact waits_kept_of_given (fun g hg => hg) hother
      | some ptr => exact waits_kept_of_given (fun g hg => hg) hother
  | free ptr =>
      cases ptr with
      | none => exact absurd hwaits id
      | some ptr =>
          obtain ⟨b, hb, rfl⟩ := hwaits
          cases call' with
          | malloc size => exact hother
          | free ptr' =>
              cases ptr' with
              | none => exact hother
              | some ptr' =>
                  obtain ⟨a, ha, rfl⟩ := hother
                  refine ⟨a, List.mem_filter.mpr ⟨ha, ?_⟩, rfl⟩
                  simp only [ne_eq, Option.some.injEq, decide_not,
                    Bool.not_eq_eq_eq_not, Bool.not_true, decide_eq_false_iff_not]
                  exact fun heq => hne (given_inj hnodup ha hb heq)

/-- What `start` can do. -/
theorem start_eq (h : start c call s = some (none, s')) :
    (Waits c s call ∧ s' = s ∧ ∃ size, call = .malloc size) ∨
      ∃ a ∈ s.owned, call = .free (some a.ptr) ∧
        s' = { s with owned := s.owned.erase a, given := (c, a) :: s.given } := by
  cases call with
  | malloc size =>
      rw [start] at h
      split at h
      · cases h
      · split at h
        · cases h
          exact .inl ⟨⟨by assumption, by assumption⟩, rfl, size, rfl⟩
        · cases h
  | free ptr =>
      cases ptr with
      | none => cases h
      | some ptr =>
          obtain ⟨a, ha, rfl, hs⟩ := start_free h
          exact .inr ⟨a, ha, rfl, hs⟩

theorem start_early {r : Option Nat} (h : start c call s = some (some r, s')) :
    s' = s := by
  cases call with
  | malloc size =>
      rw [start] at h
      split at h
      · cases h
        rfl
      · split at h <;> cases h
  | free ptr =>
      cases ptr with
      | none =>
          cases h
          rfl
      | some ptr =>
          obtain ⟨a, -, heq⟩ := Option.map_eq_some_iff.mp h
          cases heq

theorem assertions_sound : (assertions Core A).Sound (heap Core A) where
  early log c call s r s' hstart := by
    obtain rfl := start_early hstart
    exact ⟨id, fun _ _ _ => id, fun _ _ _ _ => id⟩
  begins log c call s s' hstart := by
    rcases start_eq hstart with ⟨hwaits, rfl, -⟩ | ⟨a, ha, rfl, rfl⟩
    · exact ⟨⟨id, fun _ _ _ => id, fun _ _ _ _ => id⟩, hwaits⟩
    · refine ⟨⟨?_, ?_, ?_⟩, a, List.mem_cons_self, rfl⟩
      · rintro ⟨live, hreach, hperm⟩
        exact ⟨live, hreach, hperm.trans (held_give ha c).symm⟩
      · intro c' call' _ hwaits
        exact waits_kept_of_given (fun g hg => List.mem_cons_of_mem _ hg) hwaits
      · intro c' call' place _ hbusy
        exact Busy.give hbusy ha c
  enters := by
    rintro log c call s ⟨live, hreach, hperm⟩ hwaits
    cases call with
    | malloc size => exact busy_malloc hreach hperm hwaits.1 hwaits.2
    | free ptr =>
        cases ptr with
        | none => exact absurd hwaits id
        | some ptr =>
            obtain ⟨b, hb, rfl⟩ := hwaits
            exact busy_free hreach hperm hb
  goesOn hbusy hstep := by
    obtain ⟨hbusy', hgiven⟩ := Busy.goesOn hbusy hstep
    refine ⟨hbusy', fun c' call' _ hwaits => ?_⟩
    exact waits_kept_of_given (fun g hg => hgiven ▸ hg) hwaits
  returns hbusy hstep := by
    obtain ⟨m, live, rfl, hreach, hperm⟩ := Busy.returns hbusy hstep
    refine ⟨⟨live, ?_, hperm⟩, fun c' call' hne hwaits => ?_⟩
    · rwa [mem_finish]
    · exact waits_kept_of_finish hbusy.distinct hbusy.waits
        (fun heq => hne (congrArg some heq)) hwaits m _
  moves log move s s' hwrite := by
    obtain ⟨a, ha, hx, rfl⟩ := write_eq hwrite
    refine ⟨?_, fun c call _ hwaits => waits_kept_of_given (fun g => id) hwaits,
      fun c call place _ hbusy => Busy.write hbusy hwrite⟩
    rintro ⟨live, hreach, hperm⟩
    exact ⟨live, reachable_write hreach
      (hperm.mem_iff.mpr (mem_held_of_owned ha)) hx.1 hx.2 _, hperm⟩

section Runs

variable [DecidableEq Core] {m : Mem} {calls : List (Core × Call)}
  {log : List (Monitor.Done Core Call (Option Nat))}
  {st : Monitor.State Core Call Place (Shared Core)}

theorem hold_of_run
    (h : Monitor.Run (heap Core A) ⟨init A m, [], []⟩ calls log st) :
    (assertions Core A).Hold log st :=
  assertions_sound.run ⟨[], .init m, .refl _⟩ h

/-- One core has got a block, and the other one has taken `n` steps in its
`malloc`. -/
def sampleSchedule (n : Nat) : List (Monitor.Action Bool Call (Nat × UInt8)) :=
  List.flatten [[.call false (.malloc 100), .acquire false],
    List.replicate 15 (.step false), [.call true (.malloc 8), .acquire true],
    List.replicate n (.step true)]

/-- After 17 steps the other core has got its block too. -/
theorem sampleSchedule_run :
    ∃ calls log st, Monitor.Run (heap Bool sampleArena)
        ⟨init sampleArena (fun _ => 0), [], []⟩ calls log st ∧
      st.locked = false ∧ st.shared.owned = [⟨4256, 8⟩, ⟨4112, 100⟩] := by
  have hfollow : (Monitor.follow (heap Bool sampleArena)
      ⟨⟨init sampleArena (fun _ => 0), [], []⟩, false, fun _ => .outside⟩
      (sampleSchedule 17)).map (fun r => (r.2.2.locked, r.2.2.shared.owned)) =
      some (false, [⟨4256, 8⟩, ⟨4112, 100⟩]) := by
    decide +kernel
  obtain ⟨⟨calls, log, st⟩, hrun, heq⟩ := Option.map_eq_some_iff.mp hfollow
  rw [Prod.mk.injEq] at heq
  exact ⟨calls, log, st, Monitor.Run.init.follow hrun, heq⟩

/-- The ninth step writes the size to the footer of the new block. -/
theorem sampleSchedule_step :
    ∃ calls log st calls' log' st', Monitor.Run (heap Bool sampleArena)
        ⟨init sampleArena (fun _ => 0), [], []⟩ calls log st ∧
      Monitor.step (heap Bool sampleArena) st (.step true) =
        some (calls', log', st') ∧
      st.shared.owned = [⟨4112, 100⟩] ∧
      st.shared.mem 4272 = 0 ∧ st'.shared.mem 4272 = 48 := by
  have hfollow : (Monitor.follow (heap Bool sampleArena)
      ⟨⟨init sampleArena (fun _ => 0), [], []⟩, false, fun _ => .outside⟩
      (sampleSchedule 8)).bind (fun r => (Monitor.step (heap Bool sampleArena)
        r.2.2 (.step true)).map fun r' =>
          (r.2.2.shared.owned, r.2.2.shared.mem 4272, r'.2.2.shared.mem 4272)) =
      some ([⟨4112, 100⟩], 0, 48) := by
    decide +kernel
  obtain ⟨⟨calls, log, st⟩, hrun, hrest⟩ := Option.bind_eq_some_iff.mp hfollow
  obtain ⟨⟨calls', log', st'⟩, hstep, heq⟩ := Option.map_eq_some_iff.mp hrest
  simp only [Prod.mk.injEq] at heq
  exact ⟨calls, log, st, calls', log', st', Monitor.Run.init.follow hrun, hstep,
    heq⟩

/-- Every run of the concurrent heap refines one of the heap in which calls
are single steps: they agree on the whole memory whenever the lock is free,
and at all times on the bytes of the blocks that clients own, which are live
there. -/
theorem concurrent_heap_refines
    (h : Monitor.Run (heap Core A) ⟨init A m, [], []⟩ calls log st) :
    ∃ s : State, Reachable A s ∧
      (st.locked = false →
        s.mem = st.shared.mem ∧ s.live.Perm st.shared.held) ∧
      ∀ a ∈ st.shared.owned, a ∈ s.live ∧
        ∀ x, a.ptr ≤ x → x < a.ptr + a.size → s.mem x = st.shared.mem x := by
  have hold := hold_of_run h
  cases hlocked : st.locked with
  | false =>
      obtain ⟨⟨live, hreach, hperm⟩, -⟩ := hold.isFree hlocked
      refine ⟨⟨st.shared.mem, live⟩, hreach, fun _ => ⟨rfl, hperm⟩, ?_⟩
      intro a ha
      exact ⟨hperm.mem_iff.mpr (mem_held_of_owned ha), fun _ _ _ => rfl⟩
  | true =>
      obtain ⟨c, call, place, -, hbusy, -⟩ := hold.busy hlocked
      obtain ⟨result, m', live, hrun, hreach, hperm⟩ := hbusy.ends
      refine ⟨⟨m', live⟩, hreach,
        fun hfree => absurd hfree.symm Bool.false_ne_true, fun a ha => ?_⟩
      refine ⟨hperm.mem_iff.mpr
        (mem_held_of_owned (owned_finish ha call result)), fun x hlo hhi => ?_⟩
      have hkept := hbusy.spares.run_kept (P := fun m => m x = st.shared.mem x)
        rfl fun req m hspares hx =>
          (access_apply (hspares ⟨a, ha⟩ ⟨x, hlo, hhi⟩) m).trans hx
      rwa [hrun] at hkept

theorem concurrent_heap_refines_sample :
    ∃ (st : Monitor.State Bool Call Place (Shared Bool)) (s : State),
      st.locked = false ∧ st.shared.owned = [⟨4256, 8⟩, ⟨4112, 100⟩] ∧
      Reachable sampleArena s ∧ s.mem = st.shared.mem ∧
      s.live.Perm st.shared.held ∧
      ∀ a ∈ st.shared.owned, a ∈ s.live := by
  obtain ⟨calls, log, st, hrun, hfree, howned⟩ := sampleSchedule_run
  obtain ⟨s, hreach, hwhole, hbytes⟩ := concurrent_heap_refines hrun
  obtain ⟨hmem, hperm⟩ := hwhole hfree
  exact ⟨st, s, hfree, howned, hreach, hmem, hperm, fun a ha => (hbytes a ha).1⟩

/-- Nobody but its owner changes a byte of a block: not the calls of other
cores, whatever point of their sections they are at, and not the calls of the
owner itself. -/
theorem concurrent_heap_spares
    (h : Monitor.Run (heap Core A) ⟨init A m, [], []⟩ calls log st)
    {action : Monitor.Action Core Call (Nat × UInt8)}
    {calls' : List (Core × Call)}
    {log' : List (Monitor.Done Core Call (Option Nat))}
    {st' : Monitor.State Core Call Place (Shared Core)}
    (hstep : Monitor.step (heap Core A) st action = some (calls', log', st'))
    {a : Alloc} (ha : a ∈ st.shared.owned) {x : Nat} (hlo : a.ptr ≤ x)
    (hhi : x < a.ptr + a.size) (hother : ∀ value, action ≠ .move (x, value)) :
    st'.shared.mem x = st.shared.mem x := by
  have hold := hold_of_run h
  cases Monitor.Does.of_step hstep with
  | early outside start => rw [start_early start]
  | begins outside start =>
      rcases start_eq start with ⟨-, rfl, -⟩ | ⟨b, -, -, rfl⟩
      · rfl
      · rfl
  | enters spins isFree => rfl
  | goesOn inside step =>
      exact hold.inside inside |>.2.1.step_apply step ha hlo hhi
  | returns inside step =>
      exact hold.inside inside |>.2.1.step_apply step ha hlo hhi
  | @moves byte s moved =>
      obtain ⟨b, -, -, rfl⟩ := write_eq moved
      refine Function.update_of_ne ?_ _ _
      rintro rfl
      exact hother byte.2 rfl

/-- While one core writes a tag in its `malloc`, the block of the other one
stays as it is. -/
theorem concurrent_heap_spares_sample :
    ∃ st st' : Monitor.State Bool Call Place (Shared Bool),
      st.shared.owned = [⟨4112, 100⟩] ∧
      st'.shared.mem 4272 ≠ st.shared.mem 4272 ∧
      st'.shared.mem 4200 = st.shared.mem 4200 := by
  obtain ⟨calls, log, st, calls', log', st', hrun, hstep, howned, hbefore,
    hafter⟩ := sampleSchedule_step
  refine ⟨st, st', howned, by rw [hbefore, hafter]; decide, ?_⟩
  exact concurrent_heap_spares hrun hstep (howned ▸ List.mem_singleton_self _)
    (by decide) (by decide) (by simp)

end Runs

end Concurrent

end Heap

end IntroOs
