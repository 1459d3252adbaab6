import Reachability.Interval.Basic
import Reachability.NameMap

/-!
# Bounds of variables

Only variables about which something is known are stored; all others may have
any value.
-/

namespace Reachability

structure Bounds where
  ranges : NameMap Interval
deriving DecidableEq

namespace Bounds

def unknown : Bounds := ⟨∅⟩

instance : Inhabited Bounds := ⟨unknown⟩

def get (bounds : Bounds) (name : String) : Interval :=
  (bounds.ranges.get? name).getD Interval.top

def set (bounds : Bounds) (name : String) (interval : Interval) : Bounds :=
  ⟨if interval.isTop then bounds.ranges.erase name else bounds.ranges.insert name interval⟩

def ofList (entries : List (String × Interval)) : Bounds :=
  ⟨(NameMap.ofList entries).filter fun _ interval => !interval.isTop⟩

def vars (bounds : Bounds) : List String := bounds.ranges.keys

def includes (outer inner : Bounds) : Bool :=
  outer.ranges.entries.all fun (name, interval) => interval.includes (inner.get name)

/-- Whether two bounds store the same variables with the same intervals. -/
def equal (first second : Bounds) : Bool :=
  first.vars.length == second.vars.length &&
    first.ranges.entries.all fun (name, interval) => second.ranges.get? name == some interval

/-- Keep the variables that have the same interval on both sides. -/
def join (first second : Bounds) : Bounds :=
  ⟨first.ranges.filter fun name interval => second.ranges.get? name == some interval⟩

def text (bounds : Bounds) : String :=
  "\x7b" ++ ", ".intercalate (bounds.ranges.entries.map fun (name, interval) =>
    name ++ ": " ++ interval.text) ++ "\x7d"

end Bounds

end Reachability
