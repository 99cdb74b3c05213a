/-! # Named variables and their feed

An image can follow ten inputs, the levels of frequency bands of a sound.  A `Feed` gives
each of them a value.  A value that is not a finite number is stored as zero, so every
feed is finite: this is a field of the type, and holds however a feed was put together.
-/
namespace GrammarArt

/-- A named input, the level of one band. -/
inductive Variable where
  | low
  | mid
  | hi
  | subBass
  | bass
  | lowMidrange
  | midrange
  | upperMidrange
  | presence
  | brilliance
  deriving DecidableEq, Repr

namespace Variable

/-- All variables, in the order of their slots. -/
def all : List Variable :=
  [low, mid, hi, subBass, bass, lowMidrange, midrange, upperMidrange, presence, brilliance]

/-- The name of a variable in grammars and expressions. -/
def name : Variable → String
  | low => "low"
  | mid => "mid"
  | hi => "hi"
  | subBass => "subbass"
  | bass => "bass"
  | lowMidrange => "lowmidrange"
  | midrange => "midrange"
  | upperMidrange => "uppermidrange"
  | presence => "presence"
  | brilliance => "brilliance"

/-- The variable of a name. -/
def ofName? (s : String) : Option Variable := all.find? fun v => v.name = s

/-- The place of a variable in a flat list of all values. -/
def slot : Variable → Nat
  | low => 0
  | mid => 1
  | hi => 2
  | subBass => 3
  | bass => 4
  | lowMidrange => 5
  | midrange => 6
  | upperMidrange => 7
  | presence => 8
  | brilliance => 9

/-- All variables, in the order of their names. -/
def byName : List Variable :=
  [bass, brilliance, hi, low, lowMidrange, mid, midrange, presence, subBass, upperMidrange]

theorem mem_all (v : Variable) : v ∈ all := by cases v <;> decide

theorem mem_byName (v : Variable) : v ∈ byName := by cases v <;> decide

theorem getElem?_all_slot (v : Variable) : all[v.slot]? = some v := by cases v <;> rfl

theorem ofName?_name (v : Variable) : ofName? v.name = some v := by cases v <;> decide

theorem ofName?_eq_some_iff {s : String} {v : Variable} : ofName? s = some v ↔ v.name = s := by
  constructor
  · intro h
    unfold ofName? at h
    have hname := List.find?_some h
    exact of_decide_eq_true hname
  · rintro rfl
    exact ofName?_name v

end Variable

/-- The current value of every variable, a finite number. -/
structure Feed where
  get : Variable → Float32
  isFinite_get : ∀ v, (get v).isFinite = true

namespace Feed

@[ext] theorem ext {a b : Feed} (h : ∀ v, a.get v = b.get v) : a = b := by
  cases a
  cases b
  simp only [mk.injEq]
  exact funext h

/-- A value as it is stored: itself if it is finite, otherwise zero. -/
def stored (value : Float32) : Float32 := if value.isFinite then value else 0

theorem isFinite_stored (value : Float32) : (stored value).isFinite = true := by
  unfold stored
  split
  · assumption
  · decide

theorem stored_of_isFinite {value : Float32} (h : value.isFinite = true) :
    stored value = value := by
  simp [stored, h]

/-- The feed with every variable at zero. -/
def none : Feed := ⟨fun _ => 0, fun _ => by decide⟩

/-- The feed after a variable was given a new value. -/
def set (feed : Feed) (v : Variable) (value : Float32) : Feed where
  get w := if w = v then stored value else feed.get w
  isFinite_get w := by
    split
    · exact isFinite_stored value
    · exact feed.isFinite_get w

@[simp] theorem get_none (v : Variable) : none.get v = 0 := rfl

@[simp] theorem get_set (feed : Feed) (v w : Variable) (value : Float32) :
    (feed.set v value).get w = if w = v then stored value else feed.get w := rfl

/-- The feed after the variable of some name was given a new value, if there is one. -/
def setNamed? (feed : Feed) (name : String) (value : Float32) : Option Feed :=
  (Variable.ofName? name).map fun v => feed.set v value

/-- The feed that a list of named values describes.  Names of no variable are passed over,
and of two values for one name the later one counts. -/
def ofNamed (entries : List (String × Float32)) : Feed :=
  entries.foldl (fun feed (name, value) => (feed.setNamed? name value).getD feed) none

/-- The names and values of a feed, in the order of the names. -/
def toNamed (feed : Feed) : List (String × Float32) :=
  Variable.byName.map fun v => (v.name, feed.get v)

/-- The values of a feed, in the order of the slots. -/
def values (feed : Feed) : List Float32 := Variable.all.map feed.get

/-- Two feeds agree if all their values are equal as numbers, `-0` and `0` included. -/
instance : BEq Feed where
  beq a b := Variable.all.all fun v => a.get v == b.get v

end Feed

end GrammarArt
