import Visibility.Http.Message
import Visibility.Json.Scan
import Visibility.Moment

namespace Visibility.ReviewApi

open Http (Uri UriError)
open Json (Value Scan)

def apiGroup : String := "authorization.openshift.io"
def apiVersion : String := apiGroup ++ "/v1"

/-- The target of a request about a namespace, whose name is not encoded. -/
def target (ns : String) : String :=
  "/apis/" ++ apiVersion ++ "/namespaces/" ++ ns ++ "/localresourceaccessreviews"

/-- A request to the reviewer, with its body as a document. -/
structure Request where
  method : String
  uri : Uri
  headers : List (String × String)
  body : Value

/-- The request about a namespace, unless its target is no request target. -/
def request (ns : String) : Except UriError Request := do
  let uri ← Uri.parse (target ns)
  return {
    method := "POST"
    uri
    headers := [("content-type", "application/json")]
    body := .object [
      ("kind", .text "LocalResourceAccessReview"), ("apiVersion", .text apiVersion),
      ("namespace", .text ns), ("verb", .text "get"), ("resourceAPIGroup", .text ""),
      ("resource", .text "namespaces"), ("resourceName", .text ns)] }

/-- What comes back when a request is sent. -/
inductive Reply where
  | response (status : Nat) (body : ByteArray)
  /-- The request could not be delivered, for the reason given. -/
  | undelivered (reason : String)

inductive Error where
  | badRequest (error : UriError)
  | undelivered (reason : String)
  /-- The server refused, with a code. -/
  | refused (code : Nat)
  | notUtf8
  | notReview
deriving DecidableEq, Repr

def Error.message (ns : String) : Error → String
  | badRequest error => error.message
  | undelivered reason => s!"failed to review access to namespace {ns}: {reason}"
  | refused _ | notUtf8 | notReview => "failed to review access to namespace " ++ ns

/-- The fields of a response. The server spells the name of the third without its second `a`; a list
may be null, and any field may be missing. -/
def reviewFields : Scan.Fields Review where
  names := ["users", "groups", "evalutionError"]
  read i r s :=
    match i with
    | 0 => (Scan.nullOr (Scan.arrayOf Scan.text) s).map fun p =>
        ({ r with users := p.1.getD [] }, p.2)
    | 1 => (Scan.nullOr (Scan.arrayOf Scan.text) s).map fun p =>
        ({ r with groups := p.1.getD [] }, p.2)
    | _ => (Scan.text s).map fun p => (r.withEvaluationError p.1, p.2)

/-- Reads the body of a response; members that a review does not have are passed over. -/
def readReview? (text : String) : Option Review :=
  (Scan.whole (Scan.record reviewFields {}) text).map (·.2)

/-- The fields of a refusal, of which the code is kept. -/
def refusalFields : Scan.Fields Nat where
  names := ["status", "message", "reason", "code"]
  read i code s :=
    match i with
    | 3 => (Scan.natural s).bind fun p => if p.1 < UInt16.size then some p else none
    | _ => (Scan.text s).map fun p => (code, p.2)

/-- Reads the code of a refusal, which needs a status and a code. -/
def readRefusal? (text : String) : Option Nat := do
  let (seen, code) ← Scan.whole (Scan.record refusalFields 0) text
  if 0 ∈ seen ∧ 3 ∈ seen then some code else none

/-- Reads what came back for a request. -/
def read : Reply → Except Error Review
  | .undelivered reason => .error (.undelivered reason)
  | .response status body =>
      match String.fromUTF8? body with
      | none => .error .notUtf8
      | some text =>
          if 400 ≤ status ∧ status < 600 then .error (.refused ((readRefusal? text).getD status))
          else
            match readReview? text with
            | some review => .ok review
            | none => .error .notReview

/-- Reviews a namespace, where `deliver` sends a request. -/
def review (deliver : Request → Reply) (ns : String) : Except Error Review :=
  match request ns with
  | .error e => .error (.badRequest e)
  | .ok r => read (deliver r)

end Visibility.ReviewApi
