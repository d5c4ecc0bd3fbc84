/-
`console::print` on any number of cores, and the PL011 behind it.  A print
polls the flag register and writes one character at a time under `g_lock`; the
UART drains its FIFO at its own pace, and drops what is written to it while
the FIFO is full.
-/
import IntroOs.ConsoleText
import IntroOs.Monitor
import Mathlib.Data.List.TakeWhile

namespace IntroOs

namespace Console

def kDataReg : Nat := 0x00

def kFlagReg : Nat := 0x18

def kFlagTxFifoFull : Nat := 1 <<< 5

def cr : UInt8 := 13

def lf : UInt8 := 10

/-- A NUL-terminated string, by its characters. -/
structure Text where
  bytes : List UInt8
  no_nul : ∀ c ∈ bytes, c ≠ 0

/-- The string at an array of characters, up to its NUL. -/
def Text.of (bytes : List UInt8) : Text where
  bytes := bytes.takeWhile fun c => c ≠ 0
  no_nul c hc := by simpa using List.mem_takeWhile_imp hc

theorem Text.bytes_of {bytes : List UInt8} (h : ∀ c ∈ bytes, c ≠ 0) :
    (Text.of bytes).bytes = bytes :=
  List.takeWhile_eq_self_iff.mpr fun c hc => by simpa using h c hc

/-- The transmit side of the UART: its FIFO, and what has left it. -/
structure Uart where
  fifo : List UInt8
  wire : List UInt8
deriving DecidableEq, Repr

/-- `UARTFR`: TXFF, TXFE, BUSY, and RXFE, as nothing is received. -/
def Uart.flags (depth : Nat) (u : Uart) : Nat :=
  (if depth ≤ u.fifo.length then kFlagTxFifoFull else 0) |||
    (if u.fifo.isEmpty then 1 <<< 7 else 1 <<< 3) ||| 1 <<< 4

/-- A write to `UARTDR`, which is lost when the FIFO is full. -/
def Uart.send (depth : Nat) (u : Uart) (c : UInt8) : Uart :=
  if depth ≤ u.fifo.length then u else { u with fifo := u.fifo ++ [c] }

/-- The UART puts the first character of its FIFO on the wire. -/
def Uart.drain (u : Uart) : Option Uart :=
  match u.fifo with
  | [] => none
  | c :: fifo => some ⟨fifo, u.wire ++ [c]⟩

/-- All that has been sent, in order. -/
def Uart.out (u : Uart) : List UInt8 := u.wire ++ u.fifo

/-- Where `print` is: at its loop condition, or in `putc_raw`, at the poll or
behind it, for the character `c` or for the `'\r'` in front of it. -/
inductive Place where
  | test (str : List UInt8)
  | poll (first : Bool) (c : UInt8) (str : List UInt8)
  | write (first : Bool) (c : UInt8) (str : List UInt8)
deriving DecidableEq, Repr

/-- One step of `print` behind the lock; it returns by unlocking. -/
def printStep (depth : Nat) : Place → Uart → (Place ⊕ Unit) × Uart
  | .test [], u => (.inr (), u)
  | .test (c :: str), u => (.inl (.poll (decide (c = lf)) c str), u)
  | .poll first c str, u =>
      if u.flags depth &&& kFlagTxFifoFull ≠ 0 then (.inl (.poll first c str), u)
      else (.inl (.write first c str), u)
  | .write true c str, u => (.inl (.poll false c str), u.send depth cr)
  | .write false c str, u => (.inl (.test str), u.send depth c)

/-- `console::print`. -/
def print (Core : Type) (depth : Nat) :
    Monitor.Object Core Text Unit Place Uart Unit where
  start _ _ u := some (none, u)
  enter text _ := .test text.bytes
  step _ place u := printStep depth place u
  move _ u := u.drain

/-- What is sent for a text. -/
def crlf : List UInt8 → List UInt8
  | [] => []
  | c :: str => if c = lf then cr :: c :: crlf str else c :: crlf str

/-- The text that a receiver makes of what is sent. -/
def uncrlf : List UInt8 → List UInt8
  | [] => []
  | [c] => [c]
  | c :: d :: rest =>
      if c = cr ∧ d = lf then lf :: uncrlf rest else c :: uncrlf (d :: rest)

theorem uncrlf_cons_cons (c d : UInt8) (rest : List UInt8) :
    uncrlf (c :: d :: rest) =
      if c = cr ∧ d = lf then lf :: uncrlf rest else c :: uncrlf (d :: rest) := by
  rw [uncrlf]

theorem crlf_append (text text' : List UInt8) :
    crlf (text ++ text') = crlf text ++ crlf text' := by
  induction text with
  | nil => rfl
  | cons c str ih =>
      rw [List.cons_append, crlf, crlf, ih]
      split <;> rfl

/-- A print never starts with a bare line feed. -/
theorem head_crlf_ne (text : List UInt8) : (crlf text).head? ≠ some lf := by
  cases text with
  | nil => simp [crlf]
  | cons c str =>
      rw [crlf]
      split
      · intro hhead
        cases hhead
      · next hne => simpa using hne

/-- What a receiver has of the past does not depend on what follows, when that
does not start with a line feed. -/
theorem uncrlf_append (past : List UInt8) {rest : List UInt8}
    (h : rest.head? ≠ some lf) :
    uncrlf (past ++ rest) = uncrlf past ++ uncrlf rest := by
  induction past using uncrlf.induct with
  | case1 => rfl
  | case2 c =>
      cases rest with
      | nil => simp [uncrlf]
      | cons d rest =>
          have hne : ¬(c = cr ∧ d = lf) := fun hboth => h (by simp [hboth.2])
          rw [List.singleton_append, uncrlf_cons_cons, if_neg hne]
          rfl
  | case3 c d rest' hboth ih =>
      rw [List.cons_append, List.cons_append, uncrlf_cons_cons, if_pos hboth,
        uncrlf_cons_cons, if_pos hboth, ih, List.cons_append]
  | case4 c d rest' hne ih =>
      rw [List.cons_append, List.cons_append, uncrlf_cons_cons, if_neg hne,
        uncrlf_cons_cons, if_neg hne, ← List.cons_append, ih, List.cons_append]

/-- A receiver gets the text that was printed. -/
theorem uncrlf_crlf (text : List UInt8) : uncrlf (crlf text) = text := by
  induction text with
  | nil => rfl
  | cons c str ih =>
      rw [crlf]
      split
      · next hlf =>
        rw [uncrlf_cons_cons, if_pos ⟨rfl, hlf⟩, ih, hlf]
      · next hne =>
        have happend := uncrlf_append [c] (head_crlf_ne str)
        rw [List.singleton_append] at happend
        rw [happend, ih]
        rfl

/-- What a print has still to send. -/
def Place.rest : Place → List UInt8
  | .test str => crlf str
  | .poll true c str | .write true c str => cr :: c :: crlf str
  | .poll false c str | .write false c str => c :: crlf str

/-- Behind the poll there is room in the FIFO. -/
def Place.Ready (depth : Nat) (u : Uart) : Place → Prop
  | .write _ _ _ => u.fifo.length < depth
  | _ => True

section Runs

variable {Core : Type} {depth : Nat}

/-- What a log of prints has sent. -/
def sent (log : List (Monitor.Done Core Text Unit)) : List UInt8 :=
  (log.map fun done => crlf done.call.bytes).flatten

theorem sent_concat (log : List (Monitor.Done Core Text Unit))
    (done : Monitor.Done Core Text Unit) :
    sent (log ++ [done]) = sent log ++ crlf done.call.bytes := by
  simp [sent]

theorem txFifoFull_iff (u : Uart) :
    u.flags depth &&& kFlagTxFifoFull ≠ 0 ↔ depth ≤ u.fifo.length := by
  unfold Uart.flags
  by_cases hfull : depth ≤ u.fifo.length
  · rw [if_pos hfull]
    split <;> simp [hfull, kFlagTxFifoFull]
  · rw [if_neg hfull]
    split <;> simp [hfull, kFlagTxFifoFull]

theorem out_send {u : Uart} (h : u.fifo.length < depth) (c : UInt8) :
    (u.send depth c).out = u.out ++ [c] := by
  rw [Uart.send, if_neg (by omega), Uart.out, Uart.out, List.append_assoc]

theorem out_drain {u u' : Uart} (h : u.drain = some u') :
    u'.out = u.out ∧ u'.fifo.length < u.fifo.length := by
  rw [Uart.drain] at h
  split at h
  · cases h
  · next c fifo hfifo =>
    cases h
    simp [Uart.out, hfifo]

theorem fifo_of_drain_none {u : Uart} (h : u.drain = none) : u.fifo = [] := by
  rw [Uart.drain] at h
  split at h
  · assumption
  · cases h

theorem rest_test_cons (c : UInt8) (str : List UInt8) :
    (Place.poll (decide (c = lf)) c str).rest = crlf (c :: str) := by
  by_cases hlf : c = lf
  · rw [decide_eq_true hlf, crlf, if_pos hlf, Place.rest]
  · rw [decide_eq_false hlf, crlf, if_neg hlf, Place.rest]

/-- A step sends what it takes off the rest, and nothing is lost. -/
theorem printStep_goesOn {place place' : Place} {u u' : Uart}
    (hready : place.Ready depth u)
    (h : printStep depth place u = (.inl place', u')) :
    (∃ piece, u'.out = u.out ++ piece ∧ piece ++ place'.rest = place.rest) ∧
      place'.Ready depth u' := by
  cases place with
  | test str =>
      cases str with
      | nil => cases h
      | cons c str =>
          cases h
          exact ⟨⟨[], by simp, rest_test_cons c str⟩, trivial⟩
  | poll first c str =>
      rw [printStep] at h
      split at h
      · cases h
        exact ⟨⟨[], by simp, rfl⟩, trivial⟩
      · next hroom =>
        cases h
        rw [txFifoFull_iff] at hroom
        exact ⟨⟨[], by simp, by cases first <;> rfl⟩, Nat.lt_of_not_le hroom⟩
  | write first c str =>
      cases first with
      | false =>
          cases h
          exact ⟨⟨[c], out_send hready c, rfl⟩, trivial⟩
      | true =>
          cases h
          exact ⟨⟨[cr], out_send hready cr, rfl⟩, trivial⟩

theorem printStep_returns {place : Place} {u u' : Uart} {r : Unit}
    (h : printStep depth place u = (.inr r, u')) :
    place.rest = [] ∧ u' = u := by
  cases place with
  | test str =>
      cases str with
      | nil =>
          cases h
          exact ⟨rfl, rfl⟩
      | cons c str => cases h
  | poll first c str =>
      rw [printStep] at h
      split at h <;> cases h
  | write first c str => cases first <;> cases h

/-- While the lock is free the prints that have returned are out, whole and in
order; while it is held so is a part of the print behind it. -/
def assertions (Core : Type) (depth : Nat) (start : Uart) :
    Monitor.Assertions Core Text Unit Place Uart where
  isFree log u := u.out = start.out ++ sent log
  waits _ _ _ := True
  busy log _ text place u :=
    (∃ part, u.out = start.out ++ sent log ++ part ∧
      part ++ place.rest = crlf text.bytes) ∧ place.Ready depth u

theorem Place.Ready.drain {place : Place} {u u' : Uart}
    (h : place.Ready depth u) (hdrain : u.drain = some u') :
    place.Ready depth u' := by
  have hlength := (out_drain hdrain).2
  cases place with
  | test str => trivial
  | poll first c str => trivial
  | write first c str => exact hlength.trans h

theorem assertions_sound (start : Uart) :
    (assertions Core depth start).Sound (print Core depth) where
  early log c call s r s' hstart := by cases hstart
  begins log c call s s' hstart := by
    cases hstart
    exact ⟨⟨id, fun _ _ _ _ => trivial, fun _ _ _ _ => id⟩, trivial⟩
  enters hfree _ := ⟨⟨[], by rw [List.append_nil]; exact hfree, rfl⟩, trivial⟩
  goesOn hbusy hstep := by
    obtain ⟨⟨part, hout, hrest⟩, hready⟩ := hbusy
    obtain ⟨⟨piece, hout', hrest'⟩, hready'⟩ := printStep_goesOn hready hstep
    refine ⟨⟨⟨part ++ piece, ?_, ?_⟩, hready'⟩, fun _ _ _ _ => trivial⟩
    · rw [hout', hout, List.append_assoc _ part piece]
    · rw [List.append_assoc, hrest', hrest]
  returns hbusy hstep := by
    obtain ⟨⟨part, hout, hrest⟩, -⟩ := hbusy
    obtain ⟨hdone, rfl⟩ := printStep_returns hstep
    rw [hdone, List.append_nil] at hrest
    refine ⟨hout.trans ?_, fun _ _ _ _ => trivial⟩
    rw [sent_concat, hrest, List.append_assoc]
  moves log move s s' hmove := by
    have hout := (out_drain hmove).1
    refine ⟨fun hfree => hout.trans hfree, fun _ _ _ _ => trivial, ?_⟩
    rintro c text place - ⟨hpart, hready⟩
    exact ⟨by rwa [hout], hready.drain hmove⟩

/-- The run of a schedule of two cores over a FIFO of one character, with what
can be seen at its end. -/
theorem exists_run (actions : List (Monitor.Action Bool Text Unit)) (u : Uart)
    (locked : Bool) (printed : List UInt8)
    (h : (Monitor.follow (print Bool 1) ⟨⟨[], []⟩, false, fun _ => .outside⟩
      actions).map (fun r => (r.2.2.shared, r.2.2.locked, sent r.2.1)) =
        some (u, locked, printed)) :
    ∃ calls log st, Monitor.Run (print Bool 1) ⟨[], []⟩ calls log st ∧
      st.shared = u ∧ st.locked = locked ∧ sent log = printed := by
  obtain ⟨⟨calls, log, st⟩, hfollow, heq⟩ := Option.map_eq_some_iff.mp h
  cases heq
  exact ⟨calls, log, st, Monitor.Run.init.follow hfollow, rfl, rfl, rfl⟩

def hello : Text := ⟨ascii "H\n", by decide +kernel⟩

def bye : Text := ⟨ascii "B", by decide +kernel⟩

/-- Both cores print at once; the second has to wait. -/
def twoPrints : List (Monitor.Action Bool Text Unit) :=
  List.flatten [[.call false hello, .call true bye, .acquire false],
    List.replicate 5 (.step false), [.move (), .step false, .step false],
    [.move (), .step false, .step false, .step false]]

/-- And the second has sent its character. -/
def secondPrint : List (Monitor.Action Bool Text Unit) :=
  [.acquire true, .step true, .step true, .move (), .step true, .step true]

variable [DecidableEq Core] {start : Uart} {calls : List (Core × Text)}
  {log : List (Monitor.Done Core Text Unit)}
  {st : Monitor.State Core Text Place Uart}

theorem hold_of_run (h : Monitor.Run (print Core depth) start calls log st) :
    (assertions Core depth start).Hold log st :=
  (assertions_sound start).run (by simp [assertions, sent]) h

/-- In every run the characters sent are those of the prints that have
returned, each whole, in the order they had the lock, and a part of the one
print behind the lock: none is lost, doubled or out of order.  Each core's
prints return in the order it makes them. -/
theorem print_atomic (h : Monitor.Run (print Core depth) start calls log st) :
    (∃ part, st.shared.out = start.out ++ sent log ++ part ∧
      (st.locked = false → part = []) ∧
      ∀ c text place, st.callers c = .inside text place →
        part ++ place.rest = crlf text.bytes) ∧
    ∀ c, Monitor.madeBy c calls =
      Monitor.endedBy c log ++ (st.callers c).pending := by
  have hold := hold_of_run h
  refine ⟨?_, fun c => h.made_eq c⟩
  cases hlocked : st.locked with
  | false =>
      obtain ⟨hfree, hnobody⟩ := hold.isFree hlocked
      refine ⟨[], by rw [List.append_nil]; exact hfree, fun _ => rfl, ?_⟩
      intro c text place hinside
      exact absurd hinside (hnobody c text place)
  | true =>
      obtain ⟨c, text, place, hinside, ⟨⟨part, hout, hrest⟩, -⟩, honly⟩ :=
        hold.busy hlocked
      refine ⟨part, hout, fun hfree => absurd hfree.symm Bool.false_ne_true, ?_⟩
      intro c' text' place' hinside'
      obtain rfl := honly c' text' place' hinside'
      rw [hinside] at hinside'
      cases hinside'
      exact hrest

theorem print_atomic_two_prints :
    ∃ calls log st, Monitor.Run (print Bool 1) ⟨[], []⟩ calls log st ∧
      st.shared = ⟨[66], [72, 13, 10]⟩ ∧ sent log = [72, 13, 10] ∧
      (∃ part, st.shared.out = [] ++ sent log ++ part ∧
        (st.locked = false → part = []) ∧
        ∀ c text place, st.callers c = .inside text place →
          part ++ place.rest = crlf text.bytes) ∧
      ∀ c, Monitor.madeBy c calls =
        Monitor.endedBy c log ++ (st.callers c).pending := by
  obtain ⟨calls, log, st, hrun, hshared, -, hsent⟩ :=
    exists_run (twoPrints ++ secondPrint) ⟨[66], [72, 13, 10]⟩ true
      [72, 13, 10] (by decide +kernel)
  exact ⟨calls, log, st, hrun, hshared, hsent, print_atomic hrun⟩

/-- The texts of the prints that have returned, one behind the other. -/
def texts (log : List (Monitor.Done Core Text Unit)) : List UInt8 :=
  (log.map fun done => done.call.bytes).flatten

section

omit [DecidableEq Core]

theorem sent_eq_crlf (log : List (Monitor.Done Core Text Unit)) :
    sent log = crlf (texts log) := by
  induction log with
  | nil => rfl
  | cons done log ih =>
      simp only [sent, texts, List.map_cons, List.flatten_cons] at *
      rw [crlf_append, ih]

end

/-- Whenever no core is printing, a receiver that turns CR LF into line feeds
has what it had before and then the printed texts, in the order the prints had
the lock. -/
theorem receiver_reads_texts
    (h : Monitor.Run (print Core depth) start calls log st)
    (hfree : st.locked = false) :
    uncrlf st.shared.out = uncrlf start.out ++ texts log := by
  have hout := ((hold_of_run h).isFree hfree).1
  rw [hout, sent_eq_crlf, uncrlf_append _ (head_crlf_ne _), uncrlf_crlf]

theorem receiver_reads_texts_two_prints :
    ∃ calls log st, Monitor.Run (print Bool 1) ⟨[], []⟩ calls log st ∧
      st.shared.out = [72, 13, 10] ∧
      uncrlf st.shared.out = uncrlf [] ++ texts log := by
  obtain ⟨calls, log, st, hrun, hshared, hlocked, -⟩ :=
    exists_run twoPrints ⟨[10], [72, 13]⟩ false [72, 13, 10] (by decide +kernel)
  exact ⟨calls, log, st, hrun, by rw [hshared]; rfl,
    receiver_reads_texts hrun hlocked⟩

section Progress

variable {core : Core} {text : Text} {place : Place}

/-- The UART can make room in its FIFO. -/
theorem exists_room (core : Core) (st : Monitor.State Core Text Place Uart)
    (hdepth : 0 < depth) :
    ∃ u, Monitor.Alone (print Core depth) core st [] { st with shared := u } ∧
      u.fifo.length < depth := by
  induction hn : st.shared.fifo.length using Nat.strong_induction_on
    generalizing st with
  | _ n ih =>
      by_cases hroom : n < depth
      · exact ⟨st.shared, .refl st, hn ▸ hroom⟩
      · cases hdrain : st.shared.drain with
        | none =>
            rw [fifo_of_drain_none hdrain, List.length_nil] at hn
            omega
        | some u =>
            have hdrains : Monitor.step (print Core depth) st (.move ()) =
                some ([], [], { st with shared := u }) :=
              congrArg (Option.map _) hdrain
            obtain ⟨u', hrest, hroom⟩ := ih u.fifo.length
              (hn ▸ (out_drain hdrain).2) { st with shared := u } rfl
            exact ⟨u', (Monitor.Alone.single (.inr ⟨(), rfl⟩) hdrains).trans
              hrest, hroom⟩

/-- Where `putc_raw` returns to. -/
def Place.after (first : Bool) (c : UInt8) (str : List UInt8) : Place :=
  if first then .poll false c str else .test str

theorem printStep_write (first : Bool) (c : UInt8) (str : List UInt8)
    (u : Uart) : ∃ u', printStep depth (.write first c str) u =
      (.inl (.after first c str), u') := by
  cases first with
  | false => exact ⟨_, rfl⟩
  | true => exact ⟨_, rfl⟩

theorem printStep_poll {u : Uart} (first : Bool) (c : UInt8)
    (str : List UInt8) : printStep depth (.poll first c str) u =
      (.inl (if depth ≤ u.fifo.length then .poll first c str
        else .write first c str), u) := by
  rw [printStep]
  by_cases hfull : depth ≤ u.fifo.length
  · rw [if_pos ((txFifoFull_iff u).mpr hfull), if_pos hfull]
  · rw [if_neg (mt (txFifoFull_iff u).mp hfull), if_neg hfull]

/-- A `putc_raw` can run to its end. -/
theorem exists_putc (hdepth : 0 < depth) {first : Bool} {c : UInt8}
    {str : List UInt8}
    (hinside : st.callers core = .inside text (.poll first c str)) :
    ∃ st', Monitor.Alone (print Core depth) core st [] st' ∧
      st'.callers core = .inside text (.after first c str) := by
  obtain ⟨u, hdrained, hroom⟩ := exists_room core st hdepth
  have hpoll : printStep depth (.poll first c str) u =
      (.inl (.write first c str), u) := by
    rw [printStep_poll, if_neg (Nat.not_le.mpr hroom)]
  obtain ⟨u', hwrite⟩ := printStep_write first c str u
  have hpolled := hdrained.trans (.goesOn hinside hpoll)
  exact ⟨_, hpolled.trans (.goesOn (Monitor.State.set_self ..) hwrite),
    Monitor.State.set_self ..⟩

/-- The characters behind the one a print is at. -/
def Place.str : Place → List UInt8
  | .test str | .poll _ _ str | .write _ _ str => str

/-- A print can get to its loop condition. -/
theorem exists_test (hdepth : 0 < depth)
    (hinside : st.callers core = .inside text place) :
    ∃ st', Monitor.Alone (print Core depth) core st [] st' ∧
      st'.callers core = .inside text (.test place.str) := by
  have hafter : ∀ {first c str} {st : Monitor.State Core Text Place Uart},
      st.callers core = .inside text (.after first c str) →
      ∃ st', Monitor.Alone (print Core depth) core st [] st' ∧
        st'.callers core = .inside text (.test str) := by
    intro first c str st hcore
    cases first with
    | false => exact ⟨st, .refl st, hcore⟩
    | true => exact exists_putc hdepth hcore
  cases place with
  | test str => exact ⟨st, .refl st, hinside⟩
  | poll first c str =>
      obtain ⟨st₁, hputc, hcore⟩ := exists_putc hdepth hinside
      obtain ⟨st', hrest, hcore'⟩ := hafter hcore
      exact ⟨st', hputc.trans hrest, hcore'⟩
  | write first c str =>
      obtain ⟨u, hwrite⟩ := printStep_write first c str st.shared
      have hwritten : Monitor.Alone (print Core depth) core st [] _ :=
        .goesOn hinside hwrite
      obtain ⟨st', hrest, hcore'⟩ := hafter (Monitor.State.set_self ..)
      exact ⟨st', hwritten.trans hrest, hcore'⟩

/-- From every state in which a core is behind the lock, its print can run to
its end by steps of that core and of the UART alone: it returns and unlocks,
and the other cores stay where they are. -/
theorem print_completes (hdepth : 0 < depth)
    (hinside : st.callers core = .inside text place) :
    ∃ actions st', (∀ action ∈ actions,
        action = .step core ∨ action = .move ()) ∧
      Monitor.follow (print Core depth) st actions =
        some ([], [⟨core, text, ()⟩], st') ∧
      st'.locked = false ∧ st'.callers core = .outside ∧
      ∀ c ≠ core, st'.callers c = st.callers c := by
  have hends : ∀ str {st : Monitor.State Core Text Place Uart},
      st.callers core = .inside text (.test str) →
      ∃ st', Monitor.Alone (print Core depth) core st [⟨core, text, ()⟩] st' ∧
        st'.locked = false ∧ st'.callers core = .outside := by
    intro str
    induction str with
    | nil =>
        intro st hcore
        exact ⟨_, .single (.inl rfl)
          (Monitor.step_returns (r := ()) hcore rfl), rfl,
          Monitor.State.set_self ..⟩
    | cons c str ih =>
        intro st hcore
        obtain ⟨st₀, hpoll, hcore₀⟩ : ∃ st₀,
            Monitor.Alone (print Core depth) core st [] st₀ ∧
              st₀.callers core = .inside text (.poll (decide (c = lf)) c str) :=
          ⟨_, .goesOn hcore rfl, Monitor.State.set_self ..⟩
        obtain ⟨st₁, htest, hcore₁⟩ := exists_test hdepth hcore₀
        obtain ⟨st', hrest, hlast⟩ := ih hcore₁
        exact ⟨st', (hpoll.trans htest).trans hrest, hlast⟩
  obtain ⟨st₁, htest, hcore₁⟩ := exists_test hdepth hinside
  obtain ⟨st', hrest, hfree, houtside⟩ := hends _ hcore₁
  have hothers := fun (c : Core) (hne : c ≠ core) =>
    (htest.trans hrest).callers_of_ne hne
  obtain ⟨actions, hactions, hfollow⟩ := htest.trans hrest
  refine ⟨actions, st', fun action hmem => ?_, hfollow, hfree, houtside,
    hothers⟩
  obtain hstep | ⟨_, hmove⟩ := hactions action hmem
  · exact .inl hstep
  · exact .inr hmove

/-- The first of two cores has the lock and prints, the second waits. -/
theorem print_completes_hello :
    ∃ calls log st, Monitor.Run (print Bool 1) ⟨[], []⟩ calls log st ∧
      ∃ actions st', Monitor.follow (print Bool 1) st actions =
          some ([], [⟨false, hello, ()⟩], st') ∧
        st'.locked = false ∧ st'.callers true = .spins bye := by
  obtain ⟨calls, log, st, hrun, hprints, hwaits⟩ : ∃ calls log st,
      Monitor.Run (print Bool 1) ⟨[], []⟩ calls log st ∧
        st.callers false = .inside hello (.test hello.bytes) ∧
        st.callers true = .spins bye :=
    ⟨_, _, _, Monitor.Run.init.follow
      (show Monitor.follow _ _ [.call false hello, .call true bye,
        .acquire false] = some _ from rfl), rfl, rfl⟩
  obtain ⟨actions, st', -, hfollow, hfree, -, hothers⟩ :=
    print_completes (show 0 < 1 by decide) hprints
  exact ⟨calls, log, st, hrun, actions, st', hfollow, hfree,
    (hothers true (by decide)).trans hwaits⟩

end Progress

end Runs

end Console

end IntroOs
