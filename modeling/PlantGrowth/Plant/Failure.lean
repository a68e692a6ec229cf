import PlantGrowth.Grammar.Basic
import PlantGrowth.Grammar.Expansion
import PlantGrowth.Number
import PlantGrowth.Turtle.Walk

/-!
# Failures

Everything that can go wrong between a configuration and its placements, with the texts that are
shown for it. Only an interrupted walk has placements to keep.
-/

namespace PlantGrowth

open Scene Turtle

/-- A configuration value that no plant can be grown from. -/
inductive SettingFault
  | keyNotSingle (key : Word)
  | spreadNotFinite (spread : Float32)
  | stepLengthNotPositive (length : Float32)
  | shrinkFactorOutOfRange (factor : Float32)
  | originNotFinite
  deriving DecidableEq

inductive Failure
  | emptySeed
  | malformedRule (rule : MalformedRule)
  | invalidSetting (fault : SettingFault)
  | unreadableDocument
  | unwritableDocument
  | interrupted (interruption : Interruption Float32)
  | expansionLimit (report : ExpansionLimit)
  deriving DecidableEq

/-- Where a failure lies: in what was asked for, in a command word, or in its size. -/
inductive FailureKind
  | config
  | interpreter
  | resource
  deriving DecidableEq, Repr

def SettingFault.message : SettingFault → String
  | .keyNotSingle key => "`" ++ String.ofList key ++ "` is not a single symbol"
  | .spreadNotFinite spread =>
    "spread must be finite, got " ++ String.ofList (Number.messageText spread)
  | .stepLengthNotPositive length =>
    "step_length must be positive, got " ++ String.ofList (Number.messageText length)
  | .shrinkFactorOutOfRange factor =>
    "shrink_factor must be in (0, 1], got " ++ String.ofList (Number.messageText factor)
  | .originNotFinite => "origin must be finite"

def faultMessage (fault : Fault) (position : Nat) : String :=
  match fault with
  | .unmatchedPop => "unmatched pop at symbol " ++ toString position
  | .stackOverflow depth =>
    "state stack exceeded " ++ toString depth ++ " entries at symbol " ++ toString position

namespace Failure

def kind : Failure → FailureKind
  | .interrupted _ => .interpreter
  | .expansionLimit _ => .resource
  | _ => .config

/-- The text of a failure. Unreadable and unwritable documents have none of their own. -/
def message? : Failure → Option String
  | .emptySeed => some "axiom must contain at least one symbol"
  | .malformedRule rule =>
    some ("malformed rule `" ++ String.ofList rule.text ++ "`: " ++ rule.fault.reason)
  | .invalidSetting fault => some ("invalid configuration: " ++ fault.message)
  | .unreadableDocument | .unwritableDocument => none
  | .interrupted interruption => some (faultMessage interruption.fault interruption.position)
  | .expansionLimit report =>
    some ("expansion exceeds " ++ toString report.limit ++ " symbols; " ++
      toString report.completed ++ " of " ++ toString report.requested ++ " iterations completed")

/-- What was placed before the failure. -/
def placements? : Failure → Option (List (Placement Float32))
  | .interrupted interruption => some interruption.placements
  | _ => none

end Failure

end PlantGrowth
