import DocComment.Text.Basic

/-! # Log events and what is written of them

An event has a level, a target, which is the part of the program that it comes from, a message and
fields. A filter says which events are written, by directives: each names a target and a level, and
the one that names the most of an event's target decides. Directives about spans and fields, which
stand in brackets, are passed over like all else that cannot be read, and nothing is said of it. -/

namespace DocComment.Log

inductive Level where
  | error
  | warn
  | info
  | debug
  | trace
deriving DecidableEq, Repr

namespace Level

/-- The place of a level, the most severe first. -/
def rank : Level → Nat
  | error => 1
  | warn => 2
  | info => 3
  | debug => 4
  | trace => 5

def name : Level → Text
  | error => "ERROR".toList
  | warn => "WARN".toList
  | info => "INFO".toList
  | debug => "DEBUG".toList
  | trace => "TRACE".toList

/-- What a filter can ask for, by name and in the order of its number: the events up to a level, or
none at all. -/
def limits : List (Text × Option Level) :=
  ("OFF".toList, none) :: [error, warn, info, debug, trace].map fun l => (l.name, some l)

/-- The limit of a name, in letters of either case, or of a number. -/
def limit? (t : Text) : Option (Option Level) :=
  match Text.toNat? (Text.dropStart ['+'] t) with
  | some n => limits[n]?.map (·.2)
  | none => limits.lookup (t.map Char.toUpper)

end Level

structure Event where
  level : Level
  target : Text
  message : Text
  fields : List (Text × Text)
deriving DecidableEq, Repr

/-- The line of an event. -/
def Event.line (e : Event) : Text :=
  Text.padStart 5 e.level.name ++ ' ' :: e.target ++ ": ".toList ++ e.message ++
    e.fields.flatMap (fun (name, value) => ' ' :: name ++ '=' :: value) ++ ['\n']

/-- Whether an event is at least as severe as `level`. -/
def Event.isUpTo (e : Event) (level : Level) : Bool := e.level.rank ≤ level.rank

/-! ### Filters -/

/-- What is written of the events whose target begins with `target`: those up to `level`, or none
at all. -/
structure Directive where
  target : Text := []
  level : Option Level
deriving DecidableEq, Repr

namespace Directive

def concerns (d : Directive) (e : Event) : Bool := d.target.isPrefixOf e.target

def admits (d : Directive) (e : Event) : Bool := d.level.any e.isUpTo

/-- Reads a directive: a level, a target, or a target and a level with an equals sign between them.
A target without a level asks for all of its events. -/
def ofText? (t : Text) : Option Directive :=
  if t.isEmpty || t.contains '[' then none
  else
    match Text.cut? ['='] t with
    | none =>
      match Level.limit? t with
      | some level => some { level }
      | none => some { target := t, level := some .trace }
    | some ([], _) => none
    | some (target, []) => some { target, level := some .trace }
    | some (target, limit) => (Level.limit? limit).map fun level => { target, level }

end Directive

structure Filter where
  directives : List Directive
deriving DecidableEq, Repr

namespace Filter

/-- The directive that decides about an event: the one with the longest target of those that concern
it, and the last one of several for the same target. -/
def decisive? (f : Filter) (e : Event) : Option Directive :=
  (f.directives.filter (·.concerns e)).foldl (fun best? d =>
    if best?.all fun best => best.target.length ≤ d.target.length then some d else best?) none

def admits (f : Filter) (e : Event) : Bool := (f.decisive? e).any (·.admits e)

/-- Reads a list of directives with commas between them. What is not a directive is passed over; if
there is none at all, errors alone are written. -/
def ofText (t : Text) : Filter :=
  match (t.splitOn ',').filterMap Directive.ofText? with
  | [] => { directives := [{ level := some .error }] }
  | directives => { directives }

end Filter

end DocComment.Log
