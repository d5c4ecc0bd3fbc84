/-
The texts the console is given: C strings, `append` and `append_uint` into
buffers of a fixed size, and the messages the kernel builds with them.  An
access outside a buffer is a fault, `none`.
-/
import IntroOs.ByteArrays
import Mathlib.Data.Nat.Digits.Lemmas

namespace IntroOs

namespace Console

open ByteMem

/-- The bytes of a string literal, without its NUL. -/
def ascii (text : String) : List UInt8 :=
  text.toList.map fun c => c.toNat.toUInt8

/-- `append`, for a source string given by its characters in front of the
NUL. -/
def append (size : Nat) (buf : Mem) (dst : Nat) :
    List UInt8 → Option (Mem × Nat)
  | [] => some (buf, dst)
  | c :: str => do
      let buf ← put size buf dst c
      append size buf (dst + 1) str

/-- `'0' + d`, as a `char`. -/
def digit (d : Nat) : UInt8 := (48 + d).toUInt8

/-- `char digits[20]` of `append_uint`. -/
def kDigits : Nat := 20

/-- The loop of `append_uint` that takes the digits off, lowest first. -/
def takeDigits (digits : Mem) (n value : Nat) : Option (Mem × Nat) :=
  if value > 0 then do
    let digits ← put kDigits digits n (digit (value % 10))
    takeDigits digits (n + 1) (value / 10)
  else some (digits, n)
termination_by value
decreasing_by omega

/-- The loop of `append_uint` that puts them out, highest first. -/
def putDigits (digits : Mem) (size : Nat) (buf : Mem) (dst : Nat) :
    Nat → Option (Mem × Nat)
  | 0 => some (buf, dst)
  | n + 1 => do
      let c ← fetch kDigits digits n
      let buf ← put size buf dst c
      putDigits digits size buf (dst + 1) n

/-- `append_uint`; `digits` is what its local array starts with. -/
def appendUint (digits : Mem) (size : Nat) (buf : Mem) (dst value : Nat) :
    Option (Mem × Nat) := do
  let (digits, n) ←
    if value = 0 then (put kDigits digits 0 (digit 0)).map fun d => (d, 1)
    else takeDigits digits 0 value
  putDigits digits size buf dst n

/-- The characters that a `char *` at `i` of a buffer stands for, if its NUL
is found among the next `fuel` bytes. -/
def cString (size : Nat) (buf : Mem) (i : Nat) : Nat → Option (List UInt8)
  | 0 => none
  | fuel + 1 => do
      let c ← fetch size buf i
      if c = 0 then some []
      else (cString size buf (i + 1) fuel).map (c :: ·)

/-- What is printed of a buffer that a message has been built in: the NUL goes
behind it and the whole is read from its start. -/
def finish (size : Nat) (built : Option (Mem × Nat)) : Option (List UInt8) := do
  let (buf, p) ← built
  let buf ← put size buf p 0
  cString size buf 0 (size + 1)

/-- The string `print_uint` prints. -/
def printUint (digits buf : Mem) (value : Nat) : Option (List UInt8) :=
  finish 21 (appendUint digits 21 buf 0 value)

/-- `char line[64]` of `print_boot_banner`, up to its NUL. -/
def buildBanner (digits line : Mem) (coreId cpuCount : Nat) :
    Option (Mem × Nat) := do
  let (line, p) ← append 64 line 0 (ascii "Booted on core ")
  let (line, p) ← appendUint digits 64 line p coreId
  let (line, p) ← append 64 line p (ascii " of ")
  let (line, p) ← appendUint digits 64 line p cpuCount
  append 64 line p (ascii " total.\n")

/-- The strings `print_boot_banner` prints, one call each. -/
def printBootBanner (digits line : Mem) (coreId cpuCount : Nat) :
    Option (List (List UInt8)) := do
  let text ← finish 64 (buildBanner digits line coreId cpuCount)
  some [ascii "\n", ascii "Hello, World!\n", text]

/-- `char line[48]` of `print_ap_greeting`, up to its NUL. -/
def buildGreeting (digits line : Mem) (coreId : Nat) : Option (Mem × Nat) := do
  let (line, p) ← append 48 line 0 (ascii "Hello from core ")
  let (line, p) ← appendUint digits 48 line p coreId
  append 48 line p (ascii ", online!\n")

/-- The string `print_ap_greeting` prints. -/
def printApGreeting (digits line : Mem) (coreId : Nat) :
    Option (List UInt8) :=
  finish 48 (buildGreeting digits line coreId)

/-- The decimal numeral of a number. -/
def decimal (value : Nat) : List UInt8 :=
  if value = 0 then [digit 0]
  else ((Nat.digits 10 value).map digit).reverse

/-- The number a numeral stands for. -/
def readDecimal (text : List UInt8) : Nat :=
  Nat.ofDigits 10 (text.reverse.map fun c => c.toNat - 48)

/-- What a writer of `text` into a buffer does: it succeeds exactly when the
text fits. -/
def laid (size : Nat) (buf : Mem) (dst : Nat) (text : List UInt8) :
    Option (Mem × Nat) :=
  if dst + text.length ≤ size then
    some (write buf dst text, dst + text.length)
  else none

variable {size dst : Nat}

theorem laid_nil (h : dst ≤ size) (buf : Mem) :
    laid size buf dst [] = some (buf, dst) := by
  rw [laid, if_pos (by simpa using h), write_nil, List.length_nil, Nat.add_zero]

/-- A writer that puts one character and goes on with the others. -/
theorem put_bind_eq_laid (h : dst ≤ size) (buf : Mem) (c : UInt8)
    {text : List UInt8} {rest : Mem → Option (Mem × Nat)}
    (hrest : dst < size → ∀ buf, rest buf = laid size buf (dst + 1) text) :
    (put size buf dst c).bind rest = laid size buf dst (c :: text) := by
  by_cases hroom : dst < size
  · rw [put_eq hroom, Option.bind_some, hrest hroom, laid, laid, write_cons,
      List.length_cons, Nat.add_comm text.length 1, Nat.add_assoc]
  · rw [put, if_neg hroom, laid, if_neg (by rw [List.length_cons]; omega)]
    rfl

theorem append_eq (h : dst ≤ size) (buf : Mem) (str : List UInt8) :
    append size buf dst str = laid size buf dst str := by
  induction str generalizing buf dst with
  | nil => rw [append, laid_nil h]
  | cons c str ih =>
      exact put_bind_eq_laid h buf c fun hroom buf => ih hroom buf

theorem takeDigits_eq (digits : Mem) {n : Nat} (h : n ≤ kDigits) (value : Nat) :
    takeDigits digits n value =
      laid kDigits digits n ((Nat.digits 10 value).map digit) := by
  induction value using Nat.strong_induction_on generalizing digits n with
  | _ value ih =>
      rw [takeDigits]
      by_cases hpos : value > 0
      · rw [if_pos hpos, Nat.digits_def' (by decide) hpos, List.map_cons]
        exact put_bind_eq_laid h digits _ fun hroom digits =>
          ih (value / 10) (by omega) digits hroom
      · have hzero : value = 0 := by omega
        subst hzero
        rw [if_neg hpos, Nat.digits_zero, List.map_nil, laid_nil h]

/-- The digits come out in the reverse of the order they lie in. -/
theorem putDigits_eq (digits buf : Mem) (h : dst ≤ size) {n : Nat}
    (hn : n ≤ kDigits) :
    putDigits digits size buf dst n =
      laid size buf dst ((List.range n).map digits).reverse := by
  induction n generalizing buf dst with
  | zero => rw [putDigits, List.range_zero, List.map_nil, List.reverse_nil,
      laid_nil h]
  | succ n ih =>
      rw [List.range_succ, List.map_append, List.reverse_append, List.map_cons,
        List.map_nil, List.reverse_singleton, List.singleton_append, putDigits,
        fetch_eq (by omega), Option.bind_eq_bind, Option.bind_some]
      exact put_bind_eq_laid h buf _ fun hroom buf => ih buf hroom (by omega)

theorem length_digits_le {value k : Nat} (h : value < 10 ^ k) :
    (Nat.digits 10 value).length ≤ k :=
  (Nat.digits_length_le_iff (by decide) value).mpr h

theorem length_decimal_le {value k : Nat} (h : value < 10 ^ k) (hk : 0 < k) :
    (decimal value).length ≤ k := by
  rw [decimal]
  split
  · exact hk
  · simpa using length_digits_le h

/-- `append_uint` writes the decimal numeral of its argument. -/
theorem appendUint_eq (digits buf : Mem) (h : dst ≤ size) {value : Nat}
    (hvalue : value < 2 ^ 64) :
    appendUint digits size buf dst value =
      laid size buf dst (decimal value) := by
  rw [appendUint, decimal]
  by_cases hzero : value = 0
  · rw [if_pos hzero, if_pos hzero, put_eq (by decide)]
    exact putDigits_eq _ buf h (by decide)
  · have hlength := length_digits_le (k := 20) (hvalue.trans (by norm_num))
    have hread := map_write digits 0 ((Nat.digits 10 value).map digit)
    rw [if_neg hzero, if_neg hzero, takeDigits_eq digits (Nat.zero_le _), laid,
      if_pos (by simpa [kDigits] using hlength)]
    refine (putDigits_eq _ buf h (by simpa [kDigits] using hlength)).trans ?_
    rw [List.range_eq_range', Nat.zero_add, hread]

theorem toNat_digit {d : Nat} (h : d < 10) : (digit d).toNat = 48 + d := by
  rw [digit, Nat.toUInt8, UInt8.toNat_ofNat', Nat.mod_eq_of_lt (by omega)]

/-- Numerals can be read back. -/
theorem readDecimal_decimal (value : Nat) :
    readDecimal (decimal value) = value := by
  rw [decimal]
  split
  · next hzero =>
    subst hzero
    rfl
  · have hdigits : (Nat.digits 10 value).map
        ((fun c : UInt8 => c.toNat - 48) ∘ digit) = Nat.digits 10 value := by
      conv_rhs => rw [← List.map_id (Nat.digits 10 value)]
      refine List.map_congr_left fun d hd => ?_
      have hlt := Nat.digits_lt_base (by decide) hd
      rw [Function.comp_apply, toNat_digit hlt, Nat.add_sub_cancel_left, id]
    rw [readDecimal, List.reverse_reverse, List.map_map, hdigits,
      Nat.ofDigits_digits]

theorem decimal_ne_zero (value : Nat) : ∀ c ∈ decimal value, c ≠ 0 := by
  intro c hc
  rw [decimal] at hc
  split at hc
  · rw [List.mem_singleton.mp hc]
    decide
  · rw [List.mem_reverse, List.mem_map] at hc
    obtain ⟨d, hd, rfl⟩ := hc
    have hlt := toNat_digit (Nat.digits_lt_base (by decide) hd)
    intro hzero
    rw [hzero, UInt8.toNat_zero] at hlt
    omega

/-- Only zero has a numeral that starts with the digit 0. -/
theorem head_decimal_ne {value : Nat} (h : value ≠ 0) :
    (decimal value).head? ≠ some (digit 0) := by
  have hne : Nat.digits 10 value ≠ [] := Nat.digits_ne_nil_iff_ne_zero.mpr h
  rw [decimal, if_neg h, List.head?_reverse, List.getLast?_map,
    List.getLast?_eq_some_getLast hne, Option.map_some]
  intro heq
  have hlast := Nat.getLast_digit_ne_zero 10 h
  have hlt := Nat.digits_lt_base (b := 10) (by decide)
    (List.getLast_mem hne)
  have hvalue := congrArg UInt8.toNat (Option.some.inj heq)
  rw [toNat_digit hlt, toNat_digit (by decide)] at hvalue
  omega

/-- The C string behind a pointer, when its bytes and the NUL lie there. -/
theorem cString_eq {m : Mem} {text : List UInt8} {i fuel : Nat}
    (hbytes : (List.range' i (text.length + 1)).map m = text ++ [0])
    (hsize : i + text.length < size) (htext : ∀ c ∈ text, c ≠ 0)
    (hfuel : text.length < fuel) : cString size m i fuel = some text := by
  induction text generalizing i fuel with
  | nil =>
      cases fuel with
      | zero => omega
      | succ fuel =>
          have hnul : m i = 0 := by simpa using hbytes
          rw [cString, fetch_eq (by simpa using hsize), hnul]
          rfl
  | cons c text ih =>
      cases fuel with
      | zero => omega
      | succ fuel =>
          rw [List.length_cons] at *
          rw [List.range'_succ, List.map_cons, List.cons_append,
            List.cons.injEq] at hbytes
          have hrest : cString size m (i + 1) fuel = some text :=
            ih hbytes.2 (by omega)
              (fun d hd => htext d (List.mem_cons_of_mem c hd)) (by omega)
          rw [cString, fetch_eq (by omega), hbytes.1, Option.bind_eq_bind,
            Option.bind_some, if_neg (htext c List.mem_cons_self), hrest]
          rfl

/-- Printing what was built: the text comes out as long as its NUL fits. -/
theorem finish_laid (buf : Mem) {text : List UInt8}
    (htext : ∀ c ∈ text, c ≠ 0) :
    finish size (laid size buf 0 text) =
      if text.length < size then some text else none := by
  by_cases hroom : text.length < size
  · have hwrite := map_write buf 0 (text ++ [0])
    rw [List.length_append, List.length_singleton] at hwrite
    rw [finish, laid, if_pos (by omega), if_pos hroom, Nat.zero_add]
    simp only [Option.bind_eq_bind, Option.bind_some]
    rw [put_eq hroom, Option.bind_some]
    have happend := write_append buf 0 text [0]
    rw [Nat.zero_add] at happend
    rw [happend]
    exact cString_eq hwrite (by omega) htext (by omega)
  · rw [if_neg hroom, finish, laid, Nat.zero_add]
    split
    · simp only [Option.bind_eq_bind, Option.bind_some]
      rw [put, if_neg hroom]
      rfl
    · rfl

/-- Writers one after the other write their texts one behind the other. -/
theorem laid_append (buf : Mem) (text : List UInt8)
    {rest : Mem × Nat → Option (Mem × Nat)} {text' : List UInt8}
    (hrest : ∀ buf p, p ≤ size → rest (buf, p) = laid size buf p text') :
    (laid size buf dst text).bind rest = laid size buf dst (text ++ text') := by
  rw [laid]
  split
  · next hroom =>
    rw [Option.bind_some, hrest _ _ hroom, laid, laid, write_append,
      List.length_append, Nat.add_assoc]
  · next hroom =>
    rw [laid, if_neg (by rw [List.length_append]; omega)]
    rfl

/-- The NUL of `print_uint` always fits. -/
theorem printUint_eq (digits buf : Mem) {value : Nat} (h : value < 2 ^ 64) :
    printUint digits buf value = some (decimal value) := by
  have hlength : (decimal value).length ≤ 20 :=
    length_decimal_le (h.trans (by norm_num)) (by decide)
  rw [printUint, appendUint_eq digits buf (by decide) h,
    finish_laid buf (decimal_ne_zero value), if_pos (by omega)]

/-- `append_uint` writes the decimal numeral of its argument when there is
room for it, and never past the end of its own array; the numeral has at most
20 digits, no needless zero in front, and reads back as the argument.  It is
what `print_uint` prints, whose buffer always has room for it. -/
theorem append_uint_numeral (digits buf : Mem) (h : dst ≤ size) {value : Nat}
    (hvalue : value < 2 ^ 64) :
    appendUint digits size buf dst value =
        (if dst + (decimal value).length ≤ size then
          some (write buf dst (decimal value), dst + (decimal value).length)
        else none) ∧
      (decimal value).length ≤ 20 ∧
      ((decimal value).head? = some (digit 0) → value = 0) ∧
      readDecimal (decimal value) = value ∧
      printUint digits buf value = some (decimal value) := by
  refine ⟨appendUint_eq digits buf h hvalue, ?_, ?_,
    readDecimal_decimal value, printUint_eq digits buf hvalue⟩
  · exact length_decimal_le (hvalue.trans (by norm_num)) (by decide)
  · intro hhead
    by_contra hne
    exact head_decimal_ne hne hhead

theorem append_uint_numeral_max :
    appendUint (fun _ => 0) 21 (fun _ => 0) 0 18446744073709551615 =
        (if 0 + (decimal 18446744073709551615).length ≤ 21 then
          some (write (fun _ => 0) 0 (decimal 18446744073709551615),
            0 + (decimal 18446744073709551615).length)
        else none) ∧
      (decimal 18446744073709551615).length ≤ 20 ∧
      ((decimal 18446744073709551615).head? = some (digit 0) →
        18446744073709551615 = 0) ∧
      readDecimal (decimal 18446744073709551615) = 18446744073709551615 ∧
      printUint (fun _ => 0) (fun _ => 0) 18446744073709551615 =
        some (decimal 18446744073709551615) :=
  append_uint_numeral _ _ (by decide) (by decide)

/-- A message built from parts that have no NUL in them and fit. -/
theorem finish_parts (buf : Mem) {parts : List (List UInt8)}
    (hparts : ∀ part ∈ parts, ∀ c ∈ part, c ≠ 0)
    (hlength : (parts.map List.length).sum < size) :
    finish size (laid size buf 0 parts.flatten) = some parts.flatten := by
  rw [finish_laid buf ?_, if_pos (by rwa [List.length_flatten])]
  intro c hc
  obtain ⟨part, hpart, hmem⟩ := List.mem_flatten.mp hc
  exact hparts part hpart c hmem

theorem length_decimal32_le {value : Nat} (h : value < 2 ^ 32) :
    (decimal value).length ≤ 10 :=
  length_decimal_le (h.trans (by norm_num)) (by decide)

def bannerParts (coreId cpuCount : Nat) : List (List UInt8) :=
  [ascii "Booted on core ", decimal coreId, ascii " of ", decimal cpuCount,
    ascii " total.\n"]

def greetingParts (coreId : Nat) : List (List UInt8) :=
  [ascii "Hello from core ", decimal coreId, ascii ", online!\n"]

theorem buildBanner_eq (digits line : Mem) {coreId cpuCount : Nat}
    (hcore : coreId < 2 ^ 64) (hcount : cpuCount < 2 ^ 64) :
    buildBanner digits line coreId cpuCount =
      laid 64 line 0 (bannerParts coreId cpuCount).flatten := by
  rw [buildBanner, append_eq (by decide)]
  refine laid_append line _ fun buf p hp => ?_
  simp only [appendUint_eq digits buf hp hcore]
  refine laid_append buf _ fun buf p hp => ?_
  simp only [append_eq hp]
  refine laid_append buf _ fun buf p hp => ?_
  simp only [appendUint_eq digits buf hp hcount]
  refine laid_append buf _ fun buf p hp => ?_
  simp only [append_eq hp]
  rfl

theorem buildGreeting_eq (digits line : Mem) {coreId : Nat}
    (hcore : coreId < 2 ^ 64) :
    buildGreeting digits line coreId =
      laid 48 line 0 (greetingParts coreId).flatten := by
  rw [buildGreeting, append_eq (by decide)]
  refine laid_append line _ fun buf p hp => ?_
  simp only [appendUint_eq digits buf hp hcore]
  refine laid_append buf _ fun buf p hp => ?_
  simp only [append_eq hp]
  rfl

theorem printBootBanner_eq (digits line : Mem) {coreId cpuCount : Nat}
    (hcore : coreId < 2 ^ 32) (hcount : cpuCount < 2 ^ 32) :
    printBootBanner digits line coreId cpuCount =
      some [ascii "\n", ascii "Hello, World!\n",
        (bannerParts coreId cpuCount).flatten] := by
  have hfinish : finish 64 (buildBanner digits line coreId cpuCount) =
      some (bannerParts coreId cpuCount).flatten := by
    rw [buildBanner_eq digits line (by omega) (by omega)]
    refine finish_parts line (fun part hpart => ?_) ?_
    · simp only [bannerParts, List.mem_cons, List.not_mem_nil,
        or_false] at hpart
      rcases hpart with rfl | rfl | rfl | rfl | rfl
      · decide +kernel
      · exact decimal_ne_zero coreId
      · decide +kernel
      · exact decimal_ne_zero cpuCount
      · decide +kernel
    · have hfirst := length_decimal32_le hcore
      have hsecond := length_decimal32_le hcount
      simp only [bannerParts, ascii, List.map_cons, List.map_nil,
        List.length_map, List.sum_cons, List.sum_nil]
      simp
      omega
  rw [printBootBanner, hfinish]
  rfl

theorem printApGreeting_eq (digits line : Mem) {coreId : Nat}
    (hcore : coreId < 2 ^ 32) :
    printApGreeting digits line coreId =
      some (greetingParts coreId).flatten := by
  rw [printApGreeting, buildGreeting_eq digits line (by omega)]
  refine finish_parts line (fun part hpart => ?_) ?_
  · simp only [greetingParts, List.mem_cons, List.not_mem_nil,
      or_false] at hpart
    rcases hpart with rfl | rfl | rfl
    · decide +kernel
    · exact decimal_ne_zero coreId
    · decide +kernel
  · have hlength := length_decimal32_le hcore
    simp only [greetingParts, ascii, List.map_cons, List.map_nil,
      List.length_map, List.sum_cons, List.sum_nil]
    simp
    omega

/-- The boot messages fit their buffers of 64 and 48 bytes for all core
numbers and counts, and each line is built whole before it is printed. -/
theorem boot_messages_fit (digits line : Mem) {coreId cpuCount : Nat}
    (hcore : coreId < 2 ^ 32) (hcount : cpuCount < 2 ^ 32) :
    printBootBanner digits line coreId cpuCount =
      some [ascii "\n", ascii "Hello, World!\n",
        [ascii "Booted on core ", decimal coreId, ascii " of ",
          decimal cpuCount, ascii " total.\n"].flatten] ∧
    printApGreeting digits line coreId =
      some [ascii "Hello from core ", decimal coreId,
        ascii ", online!\n"].flatten :=
  ⟨printBootBanner_eq digits line hcore hcount,
    printApGreeting_eq digits line hcore⟩

theorem boot_messages_fit_largest :
    printBootBanner (fun _ => 1) (fun _ => 2) 4294967295 4294967295 =
      some [ascii "\n", ascii "Hello, World!\n",
        [ascii "Booted on core ", decimal 4294967295, ascii " of ",
          decimal 4294967295, ascii " total.\n"].flatten] ∧
    printApGreeting (fun _ => 1) (fun _ => 2) 4294967295 =
      some [ascii "Hello from core ", decimal 4294967295,
        ascii ", online!\n"].flatten :=
  boot_messages_fit _ _ (by decide) (by decide)

end Console

end IntroOs
