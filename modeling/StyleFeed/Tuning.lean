import StyleFeed.Delivery
import StyleFeed.Toml.Document

/-!
The tuning file of a watched root. It is taken whole or not at all: one that cannot be read, or that gives
a known key anything but a whole number, leaves everything unset. The root itself cannot be tuned.
-/

namespace StyleFeed

structure Tuning where
  rescanSeconds : Option Nat
  graceMilliseconds : Option Nat
deriving DecidableEq, Repr

namespace Tuning

def unset : Tuning := ⟨none, none⟩

/-- Hidden, so that it is never a style sheet. -/
def file : Path := .ofString ".watch-dir.toml"

/-- The number under a key, if there is anything under it. -/
def setting (es : Toml.Entries) (key : String) : Option (Option Nat) :=
  match es.lookup key with
  | none => some none
  | some (.scalar (.integer n)) => if 0 ≤ n then some (some n.toNat) else none
  | some _ => none

def ofText? (text : String) : Option Tuning := do
  let es ← Toml.parse text
  return ⟨← setting es "resync_interval_secs", ← setting es "rename_grace_ms"⟩

def load (t : Tree) (root : Path) : Tuning :=
  match t.readText (root.join file) with
  | .ok text => (ofText? text).getD unset
  | .error _ => unset

/-- Zero means never. -/
def rescanEvery (u : Tuning) : Option Duration :=
  (u.rescanSeconds.filter (0 < ·)).map Clock.seconds

def defaultGraceMilliseconds : Nat := 50

def grace (u : Tuning) : Duration :=
  Clock.milliseconds (u.graceMilliseconds.getD defaultGraceMilliseconds)

def schedule (u : Tuning) : Schedule := ⟨u.grace, u.rescanEvery⟩

end Tuning
end StyleFeed
