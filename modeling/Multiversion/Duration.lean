/- Spans of time in seconds and nanoseconds. -/
namespace Multiversion

/-- The nanoseconds in a second. -/
def nanosPerSecond : Nat := 1000000000

/-- The greatest time and the greatest number of whole seconds: 64 bits. -/
def maxTime : Nat := 18446744073709551615

/-- A span of time; the nanoseconds stay below a second. -/
structure Duration where
  secs : Nat
  nanos : Nat
deriving DecidableEq, Inhabited

namespace Duration

/-- A span of whole seconds. -/
def ofSecs (secs : Nat) : Duration := ⟨secs, 0⟩

/-- A span of `secs` seconds and any number of nanoseconds; none if the whole seconds no longer
fit. -/
def carry? (secs nanos : Nat) : Option Duration :=
  let secs := secs + nanos / nanosPerSecond
  if secs ≤ maxTime then some ⟨secs, nanos % nanosPerSecond⟩ else none

/-- The whole milliseconds of a span. -/
def millis (d : Duration) : Nat := d.secs * 1000 + d.nanos / 1000000

/-- A decimal fraction of `places` digits without its trailing zeros, after a point; nothing for
zero. -/
def fraction (places n : Nat) : String :=
  if n = 0 then ""
  else
    let digits := Nat.toDigits 10 n
    let padded := List.replicate (places - digits.length) '0' ++ digits
    "." ++ String.ofList (padded.reverse.dropWhile (· = '0')).reverse

/-- A span in the largest unit of which it has at least one, with as many decimals as it needs. -/
def text (d : Duration) : String :=
  if d.secs > 0 then toString d.secs ++ fraction 9 d.nanos ++ "s"
  else if d.nanos ≥ 1000000 then
    toString (d.nanos / 1000000) ++ fraction 6 (d.nanos % 1000000) ++ "ms"
  else if d.nanos ≥ 1000 then toString (d.nanos / 1000) ++ fraction 3 (d.nanos % 1000) ++ "µs"
  else toString d.nanos ++ "ns"

/-- The time at which something made at `now` ends after the span; the last time there is, if it
would be later. -/
def after (d : Duration) (now : Nat) : Nat := min (now + min d.millis maxTime) maxTime

end Duration
end Multiversion
