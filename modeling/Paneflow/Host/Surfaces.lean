import Paneflow.Host.Approvals
import Paneflow.Host.Identity
import Paneflow.Json

/-!
# Sessions as surfaces

What the control methods read of a `SessionSummary`, and how control.rs and agent_write.rs name a session in their
answers. `Path::file_name` differs from platform to platform and is a parameter.
-/

namespace Paneflow.Host.Surfaces

open Paneflow.Host.Approvals Paneflow.Host.Identity Paneflow.Json Paneflow.Text

abbrev SessionId := Uuid

abbrev WorkspaceId := Uuid

def parseSession (text : List Char) : Except String SessionId := Uuid.parse "session id" text

structure HookRecord where
  hookEventName : String
  tool : String
  toolName : Option String
  pid : Option ℕ
  runtimeGeneration : ℕ
  receivedAtMs : ℕ
  deriving DecidableEq, Repr

inductive SessionLifecycle where
  | starting
  | running
  | exited
  | failed
  | lost
  | unverified
  deriving DecidableEq, Repr

def SessionLifecycle.label : SessionLifecycle → String
  | .starting => "starting"
  | .running => "running"
  | .exited => "exited"
  | .failed => "failed"
  | .lost => "lost"
  | .unverified => "unverified"

/-- A runtime that was seen in the foreground of a session. -/
structure Observation where
  id : String
  pid : ℕ
  pidStartedAt : Option ℕ
  deriving DecidableEq, Repr

structure ProcessIdentity where
  pid : ℕ
  startedAt : Option ℕ
  deriving DecidableEq, Repr

structure SessionSummary where
  session : SessionId
  workspace : Option WorkspaceId
  generation : ℕ
  cwd : String
  shell : String
  /-- `PANEFLOW_SURFACE_ID` in the environment of the launch -/
  surfaceVariable : Option String
  lifecycle : SessionLifecycle
  process : Option ProcessIdentity
  name : Option String
  title : Option String
  currentCwd : Option String
  lastHook : Option HookRecord
  currentObservation : Option Observation
  live : Bool
  deriving DecidableEq, Repr

/-- `AgentOccurrence::of` -/
def occurrenceOf (summary : SessionSummary) : Option (AgentOccurrence SessionId) :=
  if !summary.live then none
  else
    ((summary.currentObservation.map fun observation => (observation.pid, observation.pidStartedAt)).or
      (summary.process.map fun process => (process.pid, process.startedAt))).map fun (pid, startedAt) =>
        ⟨summary.session, summary.generation, pid, startedAt⟩

section Names

variable (fileName : String → Option String) (summary : SessionSummary)

def surfaceName : String :=
  match ([summary.name, summary.title].filterMap fun label => label.map fun label => trim label.toList).find?
      fun label => !label.isEmpty with
  | some label => String.ofList label
  | none => (fileName (summary.currentCwd.getD summary.cwd)).getD (String.ofList summary.session.text)

def pasteStart : List Char := '\x1b' :: "[200~".toList

def pasteEnd : List Char := '\x1b' :: "[201~".toList

/-- `char::is_control` -/
def isControl (c : Char) : Bool := c.toNat < 0x20 || (0x7f ≤ c.toNat && c.toNat ≤ 0x9f)

def sanitizeRelayedText (text : List Char) : List Char :=
  (replace ['\r', '\n'] ['\n'] (replace pasteEnd [] (replace pasteStart [] text))).filter fun c =>
    c = '\n' || c = '\t' || !isControl c

def maxLabelChars : ℕ := 64

def labelOf : List Char :=
  let clean := trim (((sanitizeRelayedText (surfaceName fileName summary).toList).filter fun c =>
    c ≠ '\n' && c ≠ '\t' && c ≠ '[' && c ≠ ']').take maxLabelChars)
  if clean.isEmpty then summary.session.text else clean

def surfaceNumber : List Char :=
  match summary.surfaceVariable.map fun raw => trim raw.toList with
  | some raw => if !raw.isEmpty && raw.all Char.isDigit then raw else summary.session.text
  | none => summary.session.text

def provenanceLine : List Char :=
  "[Paneflow: message from ".toList ++ labelOf fileName summary ++ ", surface ".toList ++ surfaceNumber summary ++ [']']

end Names

/-- The last hook, if it belongs to the generation. -/
def currentHook (generation : ℕ) (lastHook : Option HookRecord) : Option HookRecord :=
  lastHook.filter fun hook => hook.runtimeGeneration = generation

end Paneflow.Host.Surfaces
