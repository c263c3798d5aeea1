/-!
# Dates and times

A moment is a date, a time of day, or a date with a time of day and perhaps an offset. Every part
has a fixed number of digits and a range of its own; a date has to be in the calendar.
-/

set_option autoImplicit false

namespace Stackable.Toml

structure Date where
  year : Nat
  month : Nat
  day : Nat
deriving Repr, DecidableEq

structure Time where
  hour : Nat
  minute : Nat
  second : Nat
  /-- Further digits of a fraction are dropped. -/
  nanosecond : Nat
deriving Repr, DecidableEq

structure Moment where
  date : Option Date := none
  time : Option Time := none
  /-- Minutes ahead of universal time. -/
  offset : Option Int := none
deriving Repr, DecidableEq

def isLeapYear (year : Nat) : Bool := year % 4 == 0 && (year % 100 != 0 || year % 400 == 0)

def daysInMonth (year month : Nat) : Nat :=
  if month = 2 then if isLeapYear year then 29 else 28
  else if month = 4 ∨ month = 6 ∨ month = 9 ∨ month = 11 then 30
  else 31

namespace Moment

def digit? (c : Char) : Option Nat :=
  if '0' ≤ c ∧ c ≤ '9' then some (c.toNat - '0'.toNat) else none

def fixed? : Nat → Nat → List Char → Option (Nat × List Char)
  | 0, value, cs => some (value, cs)
  | _ + 1, _, [] => none
  | count + 1, value, c :: cs => (digit? c).bind fun d => fixed? count (10 * value + d) cs

def part? (least greatest : Nat) (cs : List Char) : Option (Nat × List Char) :=
  (fixed? 2 0 cs).filter fun p => decide (least ≤ p.1 ∧ p.1 ≤ greatest)

def mark? (mark : Char) : List Char → Option (List Char)
  | c :: cs => if c = mark then some cs else none
  | [] => none

def date? (cs : List Char) : Option (Date × List Char) := do
  let (year, cs) ← fixed? 4 0 cs
  let (month, cs) ← part? 1 12 (← mark? '-' cs)
  let (day, cs) ← part? 1 (daysInMonth year month) (← mark? '-' cs)
  return (⟨year, month, day⟩, cs)

/-- The value of the digits of a fraction, the first of which counts tenths of `unit`. -/
def fraction : Nat → List Char → Nat
  | _, [] => 0
  | unit, c :: cs => (digit? c).getD 0 * (unit / 10) + fraction (unit / 10) cs

def secondFraction (cs : List Char) : Nat × List Char :=
  match cs with
  | '.' :: rest =>
    let digits := rest.takeWhile fun c => (digit? c).isSome
    if digits.isEmpty then (0, cs) else (fraction 1000000000 digits, rest.drop digits.length)
  | _ => (0, cs)

/-- `07:32:00`; a minute may have a leap second. -/
def time? (cs : List Char) : Option (Time × List Char) := do
  let (hour, cs) ← part? 0 23 cs
  let (minute, cs) ← part? 0 59 (← mark? ':' cs)
  let (second, cs) ← part? 0 60 (← mark? ':' cs)
  let (nanosecond, cs) := secondFraction cs
  return (⟨hour, minute, second, nanosecond⟩, cs)

def offset? (cs : List Char) : Option (Int × List Char) := do
  match cs with
  | [] => none
  | sign :: cs =>
    if sign = 'Z' ∨ sign = 'z' then return (0, cs)
    else if sign = '+' ∨ sign = '-' then
      let (hours, cs) ← part? 0 23 cs
      let (minutes, cs) ← part? 0 59 (← mark? ':' cs)
      let ahead : Int := hours * 60 + minutes
      return (if sign = '-' then -ahead else ahead, cs)
    else none

def timeOfDay? : List Char → Option (Time × Option Int × List Char)
  | [] => none
  | c :: cs =>
    if c = 'T' ∨ c = 't' ∨ c = ' ' then
      (time? cs).map fun (time, cs) =>
        match offset? cs with
        | some (offset, cs) => (time, some offset, cs)
        | none => (time, none, cs)
    else none

def read? (cs : List Char) : Option (Moment × List Char) :=
  match date? cs with
  | some (date, cs) =>
    match timeOfDay? cs with
    | some (time, offset, cs) => some (⟨some date, some time, offset⟩, cs)
    | none => some (⟨some date, none, none⟩, cs)
  | none => (time? cs).map fun (time, cs) => (⟨none, some time, none⟩, cs)

end Moment

end Stackable.Toml
