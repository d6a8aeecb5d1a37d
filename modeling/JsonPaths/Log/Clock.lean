/-
JsonPaths/Log/Clock.lean

The time of day of a log record.

A moment is a number of seconds since the start of 1970.  One that is given as
a double is first rounded to microseconds, a half going to the even one.  The
clock shows the moments from the second day of the year 1 to the end of the
year 9999.  It shows local time, and the local zone is taken to be UTC: in another
zone the times are shifted, and so are the first and the last moment.
-/
import JsonPaths.Double.Rounding
import JsonPaths.Text.Numeral

namespace JsonPaths.Log

/-- A moment, in seconds since the start of 1970. -/
inductive Moment where
  | whole (n : Int)
  | double (x : Double)
  deriving DecidableEq, Repr

namespace Moment

/-- The microseconds in `n / d` of a second; the product is a double before it is
rounded to a whole number. -/
def microseconds (n d : Nat) : Nat :=
  match (Double.nearest false (n * 1000000) d).ratio? with
  | some (a, b) => Double.roundHalfEven a.natAbs b
  | none => 0

/-- The second that a moment lies in, after rounding to microseconds. -/
def second? : Moment → Option Int
  | .whole n => some n
  | .double x =>
    x.ratio?.map fun (a, b) =>
      let whole := a.tdiv b
      let micros := microseconds (a.natAbs % b) b
      if a < 0 then (if micros = 0 then whole else whole - 1)
      else if micros = 1000000 then whole + 1
      else whole

/-- The first second that the clock shows, where local time is UTC. -/
def firstSecond : Int := -62135510400

/-- The last second that the clock shows, where local time is UTC. -/
def lastSecond : Int := 253402300799

/-- A number below 100 in two digits. -/
def twoDigits (n : Nat) : List Char := Text.zeroPadded 2 (Nat.toDigits 10 n)

/-- Hours, minutes and seconds of a moment in UTC. -/
def clock? (m : Moment) : Option (List Char) :=
  match m.second? with
  | none => none
  | some s =>
    if s < firstSecond ∨ lastSecond < s then none
    else
      let day := (s.emod 86400).toNat
      some (twoDigits (day / 3600) ++ ':' :: twoDigits (day / 60 % 60) ++ ':' ::
        twoDigits (day % 60))

end Moment

end JsonPaths.Log
