import Mio.Lib.Scan
import Mio.LibMio.Elements

/-! Responses: what a handler leaves for the caller that waits for a reply. -/
namespace Mio.LibMio

def mioOk : ℤ := 1

/-- `mio_response_type_t`. -/
inductive ResponseType where
  | unknown
  | ok
  | error
  | packet
deriving DecidableEq

/-- `mio_response_error_t`; `_mio_response_error_new` leaves both fields as it finds them. -/
@[ext] structure ResponseError where
  errNum : Option ℤ := none
  description : Option (List Char) := none
deriving DecidableEq

/-- `mio_packet_type_t`. -/
inductive PacketType where
  | unknown
  | data
  | meta_
  | subscriptions
  | affiliations
  | collections
  | nodeType
  | schedule
  | references
deriving DecidableEq

/-- `mio_packet_t`, as `mio_packet_new` makes it around a payload. -/
structure Packet (α : Type) where
  type : PacketType := .unknown
  numPayloads : ℤ := 0
  payload : α

/-- What `response->response` points to. -/
inductive Body (α : Type) where
  | null
  | error (e : ResponseError)
  | packet (p : Packet α)

/-- `mio_response_t`, as `mio_response_new` makes it. -/
structure Response (α : Type) where
  responseType : ResponseType := .unknown
  response : Body α := .null

variable {α : Type}

/-- A use of `(mio_packet_t*) response->response`; an error is too small to be one. -/
def Response.packet (r : Response α) : Outcome Empty (Packet α) :=
  match r.response with
  | .packet p => .ret p
  | _ => .abort "packet"

/-- An attribute in `mio_XML_error_handler`. -/
def errorAttribute (err : ResponseError) : Attr × List Char → ResponseError
  | (.type, text) => { err with description := some text }
  | (.code, text) => { err with errNum := some (Scan.atoi text) }
  | _ => err

/-- `mio_XML_error_handler`. From the type on the response points to the error, so a code that comes
later gets there too. -/
def errorHandler (r : Response α) (attributes : List (Attr × List Char)) : Response α :=
  if attributes.any (·.1 = .type) then ⟨.error, .error (attributes.foldl errorAttribute {})⟩ else r

/-- The error an element stands for: its type as description and its code as number. -/
def errorOf (e : Xml.Element Tag Attr) : Option ResponseError :=
  if e.name = .error then
    (e.attributes.get .type).map fun type => ⟨(e.attributes.get .code).map Scan.atoi, some type⟩
  else none

/-- The order of the attributes does not matter. -/
theorem errorHandler_eq (r : Response α) {a : Xml.Attributes Attr} {reported : List (Attr × List Char)}
    (order : reported.Perm a.entries) :
    errorHandler r reported =
      match errorOf ⟨.error, a⟩ with
      | some err => ⟨.error, .error err⟩
      | none => r := by
  have number := Xml.Attributes.foldl_field (f := errorAttribute) ResponseError.errNum .code
    (g := Scan.atoi) (fun s text => rfl)
    (fun s p ne => by
      obtain ⟨k, text⟩ := p
      cases k <;> first | rfl | exact absurd rfl ne) order {}
  have description := Xml.Attributes.foldl_field (f := errorAttribute) ResponseError.description
    .type (g := id) (fun s text => rfl)
    (fun s p ne => by
      obtain ⟨k, text⟩ := p
      cases k <;> first | rfl | exact absurd rfl ne) order {}
  rw [Option.map_id, id] at description
  unfold errorHandler errorOf
  rw [if_pos rfl]
  cases typed : a.get .type with
  | some type =>
      have mem : (Attr.type, type) ∈ reported := order.mem_iff.mpr (Xml.Attributes.mem_entries.mpr typed)
      rw [if_pos (List.any_eq_true.mpr ⟨_, mem, decide_eq_true rfl⟩)]
      rw [typed] at description
      apply congrArg (fun err => (⟨.error, .error err⟩ : Response α))
      ext1
      · exact number.trans Option.or_none
      · exact description
  | none =>
      apply if_neg
      intro any
      obtain ⟨⟨k, text⟩, mem, same⟩ := List.any_eq_true.mp any
      cases of_decide_eq_true same
      have found := Xml.Attributes.mem_entries.mp (order.mem_iff.mp mem)
      rw [typed] at found
      cases found

end Mio.LibMio
