/-
# Formatted printing

`flopitoa`, `flopitoa_hex` and `flopvsnprintf` of `src/lib/str.c`.

| source | here |
| --- | --- |
| `va_list` | `VaList`: one word for each argument, and what strings the words point to |
| `buffer[pos++] = c`, `temp[i++] = c` | `push`, in an array that is written from its start |
| `while (padding-- > 0 && pos < size - 1)`, `for (i = 0; i < len && pos < size - 1; i++)` | `pushWhile` |
| `*ptr`, `ptr++` | the bytes of the format that are left |

A write past the end of an array and a read past the terminator of the format
are faults.  `temp` is not initialised: its first byte is a parameter, since
`flopitoa_hex` leaves it as it is for the value `0`.
-/

import Flopperating.Data.BoundedBuffer
import Flopperating.Lib.Str
import Flopperating.Machine

namespace Flopperating

open BoundedBuffer

/-- What printing must not do. -/
inductive PrintFault
  | format
  | buffer
  | temp
  | steps
  deriving DecidableEq

/-- The arguments: the words that `va_arg` gives one after the other, and the string that a word points to. -/
structure VaList where
  word : ℕ → UInt32
  str : UInt32 → CString

/-- The value of an expression of type `int`. -/
def i32 (x : ℤ) : ℤ := Int.bmod x (2 ^ 32)

/-- `a[len] = 0`. -/
def terminate (cap : ℕ) (e : PrintFault) (a : List UInt8) : Except PrintFault (List UInt8) := do
  let _ ← push cap e a 0
  return a

/-! ### Numbers -/

/-- `do { temp[i++] = digit(value % base); value /= base; } while (value);` -/
def digitLoop (base : ℕ) (digit : ℕ → UInt8) (cap : ℕ) : ℕ → ℕ → List UInt8 → Except PrintFault (List UInt8)
  | 0, _, _ => .error .steps
  | steps + 1, value, temp => do
    let temp ← push cap .temp temp (digit (value % base))
    if value / base = 0 then return temp else digitLoop base digit cap steps (value / base) temp

/-- `'0' + d`. -/
def decimalDigit (d : ℕ) : UInt8 := .ofNat (48 + d)

/-- `hex_digits[d]`. -/
def hexDigit (isUpper : Bool) (d : ℕ) : UInt8 :=
  ((if isUpper then "0123456789ABCDEF" else "0123456789abcdef").toList.getD d '0').toUInt8

/-- The digits of a 32-bit number are not more than its bits. -/
def digitSteps : ℕ := 32

/-- `flopitoa`, into an array of `cap` bytes. -/
def flopitoa (cap : ℕ) (value width : ℤ) : Except PrintFault (List UInt8) :=
  if value = -2147483648 then do
    let buffer ← pushAll cap .temp [] ("-2147483648".toList.map Char.toUInt8)
    terminate cap .temp buffer
  else do
    let temp ← digitLoop 10 decimalDigit 12 digitSteps value.natAbs []
    let padding := width - temp.length - if value < 0 then 1 else 0
    let temp ← pushAll 12 .temp temp (List.replicate padding.toNat '0'.toUInt8)
    let buffer ← pushAll cap .temp [] (if value < 0 then ['-'.toUInt8] else [])
    let buffer ← pushAll cap .temp buffer temp.reverse
    terminate cap .temp buffer

/-- `flopitoa_hex`, into an array of `cap` bytes that begins with `garbage`. -/
def flopitoaHex (cap : ℕ) (garbage : UInt8) (value : ℕ) (width : ℤ) (isUpper : Bool) :
    Except PrintFault (List UInt8) := do
  let temp ← (if value = 0 then pure [] else digitLoop 16 (hexDigit isUpper) 9 digitSteps value [])
  let temp ← pushAll 9 .temp temp (List.replicate (width - temp.length).toNat '0'.toUInt8)
  -- for `0` the digit goes to `temp[len++]`, and `buffer` is written from `buffer[1]` on
  let buffer ← pushAll cap .temp (if value = 0 then [garbage] else []) temp.reverse
  terminate cap .temp buffer

/-! ### Directives -/

/-- The cases of `switch (*ptr)`. -/
inductive Conv
  | d
  | u
  | x (isUpper : Bool)
  | s
  | c
  | p
  | percent
  | default (byte : UInt8)
  deriving DecidableEq

/-- The case of a byte. -/
def convOf (byte : UInt8) : Conv :=
  if byte = 'd'.toUInt8 then .d
  else if byte = 'u'.toUInt8 then .u
  else if byte = 'x'.toUInt8 then .x false
  else if byte = 'X'.toUInt8 then .x true
  else if byte = 's'.toUInt8 then .s
  else if byte = 'c'.toUInt8 then .c
  else if byte = 'p'.toUInt8 then .p
  else if byte = '%'.toUInt8 then .percent
  else .default byte

/-- The number of arguments that a case takes. -/
def Conv.args : Conv → ℕ
  | .d | .u | .x _ | .s | .c | .p => 1
  | .percent | .default _ => 0

/-- `if (*ptr == '-')`. -/
def readFlag : CString → Bool × CString
  | [] => (false, [])
  | c :: rest => if c.1 = '-'.toUInt8 then (true, rest) else (false, c :: rest)

/-- `while (*ptr >= '0' && *ptr <= '9')`. -/
def readWidth : CString → ℤ → ℤ × CString
  | [], width => (width, [])
  | c :: rest, width =>
    if '0'.toUInt8 ≤ c.1 ∧ c.1 ≤ '9'.toUInt8 then readWidth rest (i32 (width * 10 + (c.1.toNat - 48)))
    else (width, c :: rest)

/-- `(width > len) ? width - len : 0`, as the number of rounds of a loop. -/
def fieldPadding (width len : ℤ) : ℕ := if width > len then (i32 (width - len)).toNat else 0

/-- `len` characters with the padding in front of them or behind them. -/
def writeField (size : ℕ) (leftAlign : Bool) (padding : ℕ) (chars out : List UInt8) :
    Except PrintFault (List UInt8) := do
  let out ← (if leftAlign then pure out
    else pushWhile size (size - 1) .buffer out (List.replicate padding ' '.toUInt8))
  let out ← pushWhile size (size - 1) .buffer out chars
  if leftAlign then pushWhile size (size - 1) .buffer out (List.replicate padding ' '.toUInt8) else return out

/-- `case 'c'`: the character is written in any case. -/
def writeChar (size : ℕ) (leftAlign : Bool) (padding : ℕ) (ch : UInt8) (out : List UInt8) :
    Except PrintFault (List UInt8) := do
  let out ← (if leftAlign then pure out
    else pushWhile size (size - 1) .buffer out (List.replicate padding ' '.toUInt8))
  let out ← push size .buffer out ch
  if leftAlign then pushWhile size (size - 1) .buffer out (List.replicate padding ' '.toUInt8) else return out

/-- The cases of `flopvsnprintf`, with the next argument `word`. -/
def convert (size : ℕ) (args : VaList) (word : UInt32) (garbage : UInt8) (leftAlign : Bool) (width : ℤ)
    (out : List UInt8) : Conv → Except PrintFault (List UInt8)
  | .d => do
    let temp ← flopitoa 12 (toInt word.toNat) 0
    writeField size leftAlign (fieldPadding width temp.length) temp out
  | .u => do
    let temp ← flopitoa 12 (toInt word.toNat) 0
    writeField size leftAlign (fieldPadding width temp.length) temp out
  | .x isUpper => do
    let temp ← flopitoaHex 12 garbage word.toNat width isUpper
    writeField size leftAlign (fieldPadding width temp.length) temp out
  | .s =>
    let str := args.str word
    writeField size leftAlign (fieldPadding width (i32 str.length)) (str.map Subtype.val) out
  | .c => writeChar size leftAlign (fieldPadding width 1) word.toUInt8 out
  | .p => do
    let temp ← flopitoaHex 20 garbage word.toNat width false
    writeField size leftAlign (fieldPadding width temp.length) temp out
  | .percent => push size .buffer out '%'.toUInt8
  | .default byte => do
    let out ← push size .buffer out '%'.toUInt8
    push size .buffer out byte

/-- The loop of `flopvsnprintf`, from argument `k` on. -/
def flopvsnprintfFrom (size : ℕ) (args : VaList) (stack : ℕ → UInt8) :
    ℕ → ℕ → CString → List UInt8 → Except PrintFault (List UInt8)
  | _, _, [], out => .ok out
  | 0, _, _ :: _, _ => .error .steps
  | steps + 1, k, ch :: rest, out =>
    if size - 1 ≤ out.length then .ok out
    else if ch.1 = '%'.toUInt8 ∧ rest ≠ [] then
      let (leftAlign, rest) := readFlag rest
      let (width, rest) := readWidth rest 0
      match rest with
      | [] => do
        -- `*ptr` is the terminator: `default`, and then `ptr++` goes past it
        let out ← push size .buffer out '%'.toUInt8
        let _ ← push size .buffer out 0
        .error .format
      | byte :: rest => do
        let out ← convert size args (args.word k) (stack k) leftAlign width out (convOf byte.1)
        flopvsnprintfFrom size args stack steps (k + (convOf byte.1).args) rest out
    else do
      let out ← push size .buffer out ch.1
      flopvsnprintfFrom size args stack steps k rest out

/-- `flopvsnprintf`: what is in `buffer` in front of the `NUL`, and what is returned. -/
def flopvsnprintf (size : ℕ) (args : VaList) (stack : ℕ → UInt8) (format : CString) :
    Except PrintFault (List UInt8 × ℤ) := do
  let out ← flopvsnprintfFrom size args stack format.length 0 format []
  let out ← terminate size .buffer out
  return (out, i32 out.length)

/-- `flopsnprintf`. -/
def flopsnprintf (size : ℕ) (args : VaList) (stack : ℕ → UInt8) (format : CString) :
    Except PrintFault (List UInt8 × ℤ) :=
  flopvsnprintf size args stack format

end Flopperating
