import Visibility.Cache.Listing
import Visibility.Http.Form
import Visibility.Http.Message
import Visibility.Label.Parser

namespace Visibility.Endpoint

open Http (Request Response)
open Json (Value)
open Rbac (ListError)

/-- Why a request is not answered with a listing. -/
inductive Refusal where
  | notFound (path : String)
  | methodNotAllowed (method : String)
  /-- The cache has not had its first complete pass. -/
  | notReady
  | noUser
  | badSelector (error : Label.ParseError)
  | failed (error : ListError)
deriving DecidableEq, Repr

namespace Refusal

def status : Refusal → Nat
  | notFound _ => 404
  | methodNotAllowed _ => 405
  | notReady => 503
  | noUser => 401
  | badSelector _ => 400
  | failed _ => 500

def reason : Refusal → String
  | notFound _ => "NotFound"
  | methodNotAllowed _ => "MethodNotAllowed"
  | notReady => "ServiceUnavailable"
  | noUser => "Unauthorized"
  | badSelector _ => "BadRequest"
  | failed _ => "InternalError"

def message : Refusal → String
  | notFound path => path ++ " not found"
  | methodNotAllowed method => method ++ " is not supported"
  | notReady => "the project cache is not yet ready"
  | noUser => "no user was identified by the request"
  | badSelector error => "invalid label selector: " ++ error.message
  | failed error => error.message

end Refusal

def userHeader : String := "x-remote-user"
def groupHeader : String := "x-remote-group"
def scopesHeader : String := "x-remote-extra-scopes.authorization.openshift.io"
def selectorParameter : String := "labelSelector"

/-- The user that a request names first, with the groups and scopes that can be read. -/
def user? (r : Request) : Option User := do
  let name ← (← (r.headersOf userHeader).head?).text?
  if name.isEmpty then none
  let u : User := { name, groups := r.texts groupHeader }
  let scopes := r.texts scopesHeader
  return if scopes.isEmpty then u else u.withScopes scopes

/-- The selector that a query gives first; without one everything is selected. -/
def selector (query : Option String) : Except Label.ParseError Label.Selector :=
  match (query.elim [] Http.Form.parse).lookup selectorParameter with
  | some text => Label.Selector.parse text
  | none => .ok .everything

/-- Checks a request: for whom and for what selector it is to be answered, or why it is not. -/
def check (ready : Bool) (r : Request) : Except Refusal (User × Label.Selector) :=
  if r.uri.path ≠ "/projects" then .error (.notFound r.uri.path)
  else if r.method ≠ "GET" ∧ r.method ≠ "HEAD" then .error (.methodNotAllowed r.method)
  else if !ready then .error .notReady
  else
    match user? r with
    | none => .error .noUser
    | some u =>
        match selector r.uri.query with
        | .ok s => .ok (u, s)
        | .error e => .error (.badSelector e)

/-- Labels as a document, by increasing keys. -/
def labelsDocument (labels : Table String) : Value := .object (labels.entries.map fun e => (e.1, .text e.2))

/-- The metadata that an object can have, by the keys in its document. -/
def metadataMembers (o : Object) : List (String × Option Value) := [
  ("annotations", o.details.annotations),
  ("creationTimestamp", o.details.creationTimestamp),
  ("deletionGracePeriodSeconds", o.details.deletionGracePeriodSeconds),
  ("deletionTimestamp", o.details.deletionTimestamp),
  ("finalizers", o.details.finalizers),
  ("generateName", o.details.generateName),
  ("generation", o.details.generation),
  ("labels", o.labels.map labelsDocument),
  ("managedFields", o.details.managedFields),
  ("name", o.name.map .text),
  ("namespace", o.ns.map .text),
  ("ownerReferences", o.details.ownerReferences),
  ("resourceVersion", o.resourceVersion.map .text),
  ("selfLink", o.details.selfLink),
  ("uid", o.uid.map .text)]

def document (kind : String) (members : List (String × Value)) : Value :=
  .object ([("apiVersion", .text "v1"), ("kind", .text kind)] ++ members)

/-- A namespace as it is stored, with all its parts. -/
def namespaceDocument (o : Object) : Value :=
  document "Namespace" <|
    ("metadata", .object (Value.present (metadataMembers o))) ::
      Value.present [("spec", o.details.spec), ("status", o.details.status)]

/-- The namespaces of a listing, in its order. -/
def listDocument (os : List Object) : Value :=
  document "NamespaceList" [("items", .array (os.map namespaceDocument)), ("metadata", .object [])]

/-- The body of the response to a refused request. -/
def statusDocument (r : Refusal) : Value :=
  document "Status" [
    ("code", .number r.status), ("message", .text r.message), ("metadata", .object []),
    ("reason", .text r.reason), ("status", .text "Failure")]

def respond (status : Nat) (body : Value) : Response :=
  ⟨status, [("content-type", "application/json")], some body⟩

def refuse (r : Refusal) : Response := respond r.status (statusDocument r)

/-- The response to an admitted request, given its listing. -/
def answer : Except ListError (List Object) → Response
  | .ok os => respond 200 (listDocument os)
  | .error e => refuse (.failed e)

/-- The response as it is sent: one to `HEAD` has no body. -/
def send (method : String) (r : Response) : Response :=
  if method = "HEAD" then { r with body := none } else r

/-- Serves a request, where `list` lists namespaces. -/
def serve (ready : Bool) (list : User → Label.Selector → Except ListError (List Object))
    (r : Request) : Response :=
  send r.method <|
    match check ready r with
    | .error refusal => refuse refusal
    | .ok (u, s) => answer (list u s)

end Visibility.Endpoint
