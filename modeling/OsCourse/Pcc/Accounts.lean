import OsCourse.Pcc.Service

/-! # Who is counted

At every point of the loop: what the server has taken from the client of its session, which
clients it has committed and with which strings, and to whom it has sent a count. What a string has
to do with the bytes of its client is left open here, as two relations that `recv` establishes.
-/

namespace OsCourse.Pcc
open Foundations

/-- What the server's steps do to a client. -/
structure Seen where
  accepted : Bool
  arrived : List Byte
  replied : List Byte

def Peer.seen (x : Peer) : Seen := ⟨x.link = .accepted, x.toServer.arrived, x.toClient.sent⟩

def Seen.arrive (x : Seen) (l : List Byte) : Seen := { x with arrived := x.arrived ++ l }

def Seen.reply (x : Seen) (l : List Byte) : Seen := { x with replied := x.replied ++ l }

/-- The session has a connection. -/
def Pc.Engaged : Pc → Prop
  | .mask connected_socket | .check connected_socket | .enter connected_socket
  | .testSocket connected_socket => 0 ≤ connected_socket
  | .recvLength | .malloc _ | .recvMessage _ | .count _ | .send _ _ | .undo | .commit _ _ => True
  | _ => False

/-- There is no session any more, or its client plays no part in it any more. -/
def Pc.Idle : Pc → Prop
  | .test | .clear | .accept | .leave _ | .unmask _ | .returned _ | .exited _ | .undefined _
  | .crashed | .killed => True
  | _ => False

def Pc.Committing : Pc → Prop
  | .commit _ _ => True
  | _ => False

/-- The bytes of a reply to a client whose string is `m`. -/
def replyTo (host : Host) (m : List Byte) : List Byte :=
  List.ofFn (store host.order (BitVec.ofNat 32 (printables m)))

/-- What is known of the client of the session: `length` relates the bytes that have arrived to the
size of the message, `message` to the string that is counted. -/
def SessionAt (host : Host) (length : List Byte → BitVec 32 → Prop)
    (message : List Byte → List Byte → Prop) (string : List Byte) (x : Seen) : Pc → Prop
  | .mask _ | .check _ | .enter _ | .testSocket _ | .recvLength => x.arrived = [] ∧ x.replied = []
  | .malloc N_network => length x.arrived (ntohl host.order N_network) ∧ x.replied = []
  | .recvMessage N_host => length x.arrived N_host ∧ x.replied = []
  | .count m => message x.arrived m ∧ x.replied = []
  | .send m chars_count =>
    message x.arrived m ∧ x.replied = [] ∧ chars_count = BitVec.ofNat 32 (printables m)
  | .undo => x.replied = []
  | .commit m _ => message x.arrived m ∧ string = m
  | _ => True

/-- The committed sessions belong to the different clients `is` and their strings, and every client
that has been sent a count is one of them, or is about to be. -/
structure Orderly {ι : Type} (host : Host) (length : ι → List Byte → BitVec 32 → Prop)
    (message : ι → List Byte → List Byte → Prop) (session : Option ι) (v : ι → Seen) (pc : Pc)
    (committed : List (List Byte × BitVec 32)) (is : List ι) (string : ι → List Byte) : Prop where
  unmet : ∀ i, (v i).accepted = false → (v i).arrived = [] ∧ (v i).replied = []
  met : ∀ i, session = some i → (v i).accepted = true
  engaged : pc.Engaged → session ≠ none
  here : ∀ i, session = some i → SessionAt host (length i) (message i) (string i) (v i) pc
  nodup : is.Nodup
  accepted : ∀ i ∈ is, (v i).accepted = true
  read : ∀ i ∈ is, message i (v i).arrived (string i)
  entries : committed.map Prod.fst = is.map string
  fresh : pc.Engaged → ∀ i, session = some i → i ∉ is
  told : ∀ i, (v i).replied ≠ [] → (i ∈ is ∨ session = some i ∧ pc.Committing) ∧
    ∃ n, (v i).replied = (replyTo host (string i)).take n

variable {ι : Type} {host : Host} {length : ι → List Byte → BitVec 32 → Prop}
  {message : ι → List Byte → List Byte → Prop} {session : Option ι} {v : ι → Seen} {pc pc' : Pc}
  {committed : List (List Byte × BitVec 32)} {is : List ι} {string : ι → List Byte} {i : ι}

/-! ## Where the calls of a session lead -/

variable {s t : Server}

/-- What a `recv` has stored. -/
def Received.bytes : Received → List Byte
  | .ok bytes => bytes
  | .error _ => []

theorem onError_leads (s : Server) (errno : ℤ) (dropped flow : Pc) :
    (onError s errno dropped flow).committed = s.committed ∧
      ((onError s errno dropped flow).pc = flow ∨ (onError s errno dropped flow).pc = dropped ∨
        (onError s errno dropped flow).pc = .leave .fatal) := by
  obtain ⟨pc, heq, ⟨rfl, _⟩ | ⟨rfl, _⟩ | ⟨rfl, _⟩⟩ := onError_eq s errno dropped flow
  · rw [heq]
    exact ⟨rfl, Or.inr (Or.inl rfl)⟩
  · rw [heq]
    exact ⟨rfl, Or.inl rfl⟩
  · rw [heq]
    exact ⟨rfl, Or.inr (Or.inr rfl)⟩

/-- A `recv` that fails goes on as if it had received nothing, or ends the session. -/
theorem recvError_leads (s : Server) (errno : ℤ) (closing : Ending) (flow : Pc) :
    (onError s errno (.leave closing) flow).committed = s.committed ∧
      ((onError s errno (.leave closing) flow).pc = flow ∨
        ∃ ending, (onError s errno (.leave closing) flow).pc = .leave ending) := by
  refine (onError_leads ..).imp_right fun hpc => ?_
  rcases hpc with hpc | hpc | hpc
  · exact Or.inl hpc
  · exact Or.inr ⟨closing, hpc⟩
  · exact Or.inr ⟨.fatal, hpc⟩

theorem accept_leads {connected_socket : ℤ} (hs : step host s (.io (.accept connected_socket)) = some t) :
    s.pc = .accept ∧ t.pc = .mask connected_socket ∧ t.committed = s.committed := by
  rw [step] at hs
  generalize s.pc = pc at hs
  cases turn_move hs with
  | accept => exact ⟨rfl, rfl, rfl⟩

theorem recvLength_leads {res : Received} {stale : Word}
    (hs : step host s (.io (.recvLength res stale)) = some t) :
    s.pc = .recvLength ∧ t.committed = s.committed ∧
      (t.pc = .malloc (load host.order (received res.bytes stale)) ∧ res.bytes.length ≤ 4 ∨
        ∃ errno ending, res = .error errno ∧ t.pc = .leave ending) := by
  rw [step] at hs
  generalize s.pc = pc at hs
  cases turn_move hs with
  | recvLength hs =>
    refine ⟨rfl, ?_⟩
    cases res with
    | ok bytes =>
      obtain ⟨hlen, ⟨⟩⟩ := Option.ite_none_right_eq_some.mp hs
      exact ⟨rfl, Or.inl ⟨rfl, hlen⟩⟩
    | error errno =>
      cases hs
      refine (recvError_leads ..).imp_right fun hpc => ?_
      rcases hpc with hpc | ⟨ending, hpc⟩
      · exact Or.inl ⟨hpc, Nat.zero_le _⟩
      · exact Or.inr ⟨errno, ending, rfl, hpc⟩

theorem recvMessage_leads {res : Received} {beyond : List Byte}
    (hs : step host s (.io (.recvMessage res beyond)) = some t) :
    ∃ N_host, s.pc = .recvMessage N_host ∧ t.committed = s.committed ∧
      (t.pc = .count (messageFromHome N_host res.bytes beyond) ∧ res.bytes.length ≤ N_host.toNat ∨
        ∃ errno ending, res = .error errno ∧ t.pc = .leave ending) := by
  rw [step] at hs
  generalize s.pc = pc at hs
  cases turn_move hs with
  | @recvMessage N_host _ _ _ hs =>
    refine ⟨N_host, rfl, ?_⟩
    cases res with
    | ok bytes =>
      obtain ⟨hlen, ⟨⟩⟩ := Option.ite_none_right_eq_some.mp hs
      exact ⟨rfl, Or.inl ⟨rfl, hlen⟩⟩
    | error errno =>
      cases hs
      refine (recvError_leads ..).imp_right fun hpc => ?_
      rcases hpc with hpc | ⟨ending, hpc⟩
      · exact Or.inl ⟨hpc, Nat.zero_le _⟩
      · exact Or.inr ⟨errno, ending, rfl, hpc⟩

theorem send_leads {res : Except ℤ ℕ} (hs : step host s (.io (.send res)) = some t) :
    ∃ m chars_count, s.pc = .send m chars_count ∧ t.committed = s.committed ∧
      (t.pc = .commit m chars_count ∧
          (∃ n, Service.replied t = (List.ofFn (store host.order chars_count)).take n ∧
            ∀ n', res = .ok n' → n = n') ∨
        ∃ errno, res = .error errno ∧ (t.pc = .killed ∨ t.pc = .undo ∨ t.pc = .leave .fatal) ∧
          Service.replied t = []) := by
  rw [step] at hs
  generalize s.pc = pc at hs
  cases turn_move hs with
  | @send m chars_count _ =>
    refine ⟨m, chars_count, rfl, ?_⟩
    have hreply := (afterSend_reply s m chars_count res host).1
    rw [Service.replied, hreply]
    cases res with
    | ok n => exact ⟨rfl, Or.inl ⟨rfl, n, rfl, fun _ => Except.ok.inj⟩⟩
    | error errno =>
      obtain ⟨pc, heq, ⟨rfl, _⟩ | ⟨rfl, _⟩ | ⟨rfl, _⟩ | ⟨rfl, _⟩⟩ :=
        afterSend_error s m chars_count errno host <;> rw [heq]
      · exact ⟨rfl, Or.inr ⟨errno, rfl, Or.inl rfl, rfl⟩⟩
      · exact ⟨rfl, Or.inr ⟨errno, rfl, Or.inr (Or.inl rfl), rfl⟩⟩
      · exact ⟨rfl, Or.inl ⟨rfl, 0, rfl, fun _ hok => by cases hok⟩⟩
      · exact ⟨rfl, Or.inr ⟨errno, rfl, Or.inr (Or.inr rfl), rfl⟩⟩

/-! ## Steps that leave the clients alone -/

/-- To a point where no more has to be known. -/
theorem Orderly.move (h : Orderly host length message session v pc committed is string)
    (hengaged : pc'.Engaged → pc.Engaged) (hcommitting : pc.Committing → pc'.Committing)
    (hhere : ∀ i, SessionAt host (length i) (message i) (string i) (v i) pc →
      SessionAt host (length i) (message i) (string i) (v i) pc') :
    Orderly host length message session v pc' committed is string :=
  { h with
    engaged hpc := h.engaged (hengaged hpc)
    here i hi := hhere i (h.here i hi)
    fresh hpc := h.fresh (hengaged hpc)
    told i hi := (h.told i hi).imp_left (Or.imp_right fun hs => ⟨hs.1, hcommitting hs.2⟩) }

theorem Orderly.idle (h : Orderly host length message session v pc committed is string)
    (hnot : ¬ pc.Committing) (hpc : pc'.Idle) :
    Orderly host length message session v pc' committed is string := by
  refine h.move ?_ (fun hc => absurd hc hnot) fun i _ => ?_
  · cases pc' <;> first | exact False.elim | exact absurd hpc id
  · cases pc' <;> trivial

/-- What `pcc_total` holds if it holds the committed sessions. -/
theorem Orderly.total (h : Orderly host length message session v pc committed is string)
    (k : Fin NUM_OF_CHARACTERS) : committedCounts committed k =
      BitVec.ofNat 32 (is.map fun i => (string i).count (charAt k)).sum := by
  have hstrings := congrArg (List.map (List.count (charAt k))) h.entries
  rw [List.map_map, List.map_map] at hstrings
  exact congrArg (fun l => BitVec.ofNat 32 (List.sum l)) hstrings

/-- The client of the session, while there is one. -/
theorem Orderly.exists_here (h : Orderly host length message session v pc committed is string)
    (hpc : pc.Engaged) :
    ∃ i, session = some i ∧ SessionAt host (length i) (message i) (string i) (v i) pc := by
  obtain ⟨i, hi⟩ := Option.ne_none_iff_exists'.mp (h.engaged hpc)
  exact ⟨i, hi, h.here i hi⟩

/-- The session of a client is entered into the books. -/
theorem Orderly.commit {m : List Byte} {chars_count : BitVec 32} {ending : Ending}
    (h : Orderly host length message session v (.commit m chars_count) committed is string) :
    ∃ is, Orderly host length message session v (.leave ending) (committed ++ [(m, chars_count)])
      is string := by
  obtain ⟨i, hi, hread, hstring⟩ := h.exists_here trivial
  have hfresh := h.fresh trivial i hi
  refine ⟨is ++ [i], h.unmet, h.met, False.elim, fun _ _ => trivial, ?_, ?_, ?_, ?_, False.elim, ?_⟩
  · exact List.nodup_append'.mpr ⟨h.nodup, List.nodup_singleton i, by simpa using hfresh⟩
  · rw [List.forall_mem_append, List.forall_mem_singleton]
    exact ⟨h.accepted, h.met i hi⟩
  · rw [List.forall_mem_append, List.forall_mem_singleton, hstring]
    exact ⟨h.read, hread⟩
  · rw [List.map_append, List.map_append, h.entries, List.map_singleton, List.map_singleton, hstring]
  · intro j hj
    rw [List.mem_append, List.mem_singleton]
    refine (h.told j hj).imp_left fun hj => Or.inl (hj.imp_right fun hj => ?_)
    exact Option.some.inj (hj.1.symm.trans hi)

theorem Orderly.acceptFails (h : Orderly host length message session v s.pc s.committed is string)
    {connected_socket : ℤ} (hfails : connected_socket < 0)
    (hs : step host s (.io (.accept connected_socket)) = some t) :
    Orderly host length message none v t.pc t.committed is string := by
  obtain ⟨hpc, hpc', hcommitted⟩ := accept_leads hs
  rw [hpc] at h
  rw [hpc', hcommitted]
  exact { h with
    met := nofun
    engaged hpc := absurd hpc (not_le.mpr hfails)
    here := nofun
    fresh _ := nofun
    told i hi := (h.told i hi).imp_left fun hs => Or.inl (hs.resolve_right fun hs => hs.2) }

/-- The steps of the server on its own. -/
theorem Orderly.tau (h : Orderly host length message session v s.pc s.committed is string)
    (hs : step host s (.io .tau) = some t) :
    ∃ is, Orderly host length message session v t.pc t.committed is string := by
  rw [step] at hs
  generalize s.pc = pc at h hs
  cases turn_move hs with
  | test =>
    refine ⟨is, h.idle id ?_⟩
    cases s.sigint <;> trivial
  | check =>
    cases hsig : s.sigint with
    | true => exact ⟨is, h.idle id trivial⟩
    | false => exact ⟨is, h.move id id fun _ => id⟩
  | clear | leave | undo => exact ⟨is, h.idle id trivial⟩
  | mask | enter => exact ⟨is, h.move id id fun _ => id⟩
  | @testSocket connected_socket =>
    by_cases hsocket : connected_socket < 0
    · rw [if_pos hsocket]
      exact ⟨is, h.idle id trivial⟩
    · rw [if_neg hsocket]
      exact ⟨is, h.move (fun _ => not_lt.mp hsocket) id fun _ => id⟩
  | @count m =>
    by_cases hlen : m.length < 2 ^ 31
    · rw [countMessage, countChars_eq _ _ hlen]
      exact ⟨is, h.move id id fun _ hi => ⟨hi.1, hi.2, rfl⟩⟩
    · rw [countMessage, countChars, if_neg hlen]
      exact ⟨is, h.idle id trivial⟩
  | commit => exact h.commit
  | @unmask ending =>
    obtain ⟨hpc, _, _, hcommitted, _⟩ := unmaskSigint_ledger s ending
    rw [hpc, hcommitted]
    refine ⟨is, h.idle id ?_⟩
    cases ending <;> trivial
  | print | abort => exact ⟨is, h.idle id trivial⟩

theorem Orderly.malloc (h : Orderly host length message session v s.pc s.committed is string)
    {ok : Bool} (hs : step host s (.io (.malloc ok)) = some t) :
    Orderly host length message session v t.pc t.committed is string := by
  rw [step] at hs
  generalize s.pc = pc at h hs
  cases turn_move hs with
  | malloc =>
    unfold afterMalloc
    dsimp only
    split_ifs
    · exact h.move id id fun _ => id
    · exact h.idle id trivial

theorem Orderly.sigint (h : Orderly host length message session v s.pc s.committed is string)
    (hs : step host s .sigint = some t) :
    Orderly host length message session v t.pc t.committed is string := by
  obtain ⟨_, ⟨⟩⟩ := Option.ite_none_right_eq_some.mp hs
  obtain ⟨hpc, _, _, hcommitted, _⟩ := arriveSigint_ledger s
  rwa [hpc, hcommitted]

/-! ## Steps with a client -/

variable [DecidableEq ι] {x : Seen}

/-- What is known of one client changes, and of no other one. -/
theorem Orderly.set (h : Orderly host length message session v pc committed is string) (hi : i ∉ is)
    (hnot : ¬ pc.Committing) {session' : Option ι} (hsession : session' = some i)
    (hx : x.accepted = true) (m : List Byte)
    (hhere : SessionAt host (length i) (message i) m x pc')
    (hreplied : x.replied ≠ [] → pc'.Committing ∧ ∃ n, x.replied = (replyTo host m).take n) :
    Orderly host length message session' (Function.update v i x) pc' committed is
      (Function.update string i m) := by
  have hself : ∀ j, session' = some j → j = i := fun j hj =>
    Option.some.inj (hj.symm.trans hsession)
  have hother : ∀ {j}, j ∈ is → j ≠ i := fun hj => ne_of_mem_of_not_mem hj hi
  refine ⟨fun j hj => ?_, fun j hj => ?_, fun _ => ?_, fun j hj => ?_, h.nodup, fun j hj => ?_,
    fun j hj => ?_, ?_, fun _ j hj => ?_, fun j hj => ?_⟩
  · by_cases hji : j = i
    · subst hji
      rw [Function.update_self, hx] at hj
      cases hj
    · rw [Function.update_of_ne hji] at hj ⊢
      exact h.unmet j hj
  · rw [hself j hj, Function.update_self]
    exact hx
  · rw [hsession]
    exact Option.some_ne_none i
  · rw [hself j hj, Function.update_self, Function.update_self]
    exact hhere
  · rw [Function.update_of_ne (hother hj)]
    exact h.accepted j hj
  · rw [Function.update_of_ne (hother hj), Function.update_of_ne (hother hj)]
    exact h.read j hj
  · rw [h.entries]
    exact List.map_congr_left fun j hj => (Function.update_of_ne (hother hj) m string).symm
  · rw [hself j hj]
    exact hi
  · by_cases hji : j = i
    · subst hji
      rw [Function.update_self] at hj ⊢
      rw [Function.update_self]
      exact ⟨Or.inr ⟨hsession, (hreplied hj).1⟩, (hreplied hj).2⟩
    · rw [Function.update_of_ne hji] at hj ⊢
      rw [Function.update_of_ne hji]
      exact (h.told j hj).imp_left fun hs => Or.inl (hs.resolve_right fun hs => hnot hs.2)

/-- The session with a client goes on. -/
theorem Orderly.advance (h : Orderly host length message session v pc committed is string)
    (hsession : session = some i) (hpc : pc.Engaged) (hnot : ¬ pc.Committing)
    (hx : x.accepted = true) (m : List Byte)
    (hhere : SessionAt host (length i) (message i) m x pc')
    (hreplied : x.replied ≠ [] → pc'.Committing ∧ ∃ n, x.replied = (replyTo host m).take n) :
    Orderly host length message session (Function.update v i x) pc' committed is
      (Function.update string i m) :=
  h.set (h.fresh hpc i hsession) hnot hsession hx m hhere hreplied

/-- A client is accepted. -/
theorem Orderly.accept (h : Orderly host length message session v s.pc s.committed is string)
    (hi : (v i).accepted = false) {connected_socket : ℤ}
    (hs : step host s (.io (.accept connected_socket)) = some t) :
    ∃ string, Orderly host length message (some i)
      (Function.update v i { v i with accepted := true }) t.pc t.committed is string := by
  obtain ⟨hpc, hpc', hcommitted⟩ := accept_leads hs
  rw [hpc] at h
  rw [hpc', hcommitted]
  have hnone := h.unmet i hi
  refine ⟨_, h.set (fun hmem => ?_) id rfl rfl (string i) hnone fun hne => absurd hnone.2 hne⟩
  rw [h.accepted i hmem] at hi
  cases hi

/-- A length has been received, or the session has ended instead. -/
theorem Orderly.recvLength (h : Orderly host length message session v s.pc s.committed is string)
    (hi : session = some i) {res : Received} {stale : Word}
    (hs : step host s (.io (.recvLength res stale)) = some t)
    (hlength : s.pc = .recvLength → (v i).arrived = [] → res.bytes.length ≤ 4 →
      length i res.bytes (load .big (received res.bytes stale))) :
    ∃ string, Orderly host length message session
      (Function.update v i ((v i).arrive res.bytes)) t.pc t.committed is
      string := by
  obtain ⟨hpc', hcommitted, hleads⟩ := recvLength_leads hs
  have hhere := h.here i hi
  rw [hpc'] at h hhere
  obtain ⟨harrived, hreplied⟩ := hhere
  rw [hcommitted]
  refine ⟨_, h.advance (x := (v i).arrive res.bytes) hi trivial id (h.met i hi) (string i) ?_
    fun hne => absurd hreplied hne⟩
  rcases hleads with ⟨hpc, hlen⟩ | ⟨_, ending, _, hpc⟩
  · rw [hpc]
    refine ⟨?_, hreplied⟩
    rw [ntohl_load, Seen.arrive, harrived]
    exact hlength hpc' harrived hlen
  · rw [hpc]
    trivial

theorem Orderly.recvMessage (h : Orderly host length message session v s.pc s.committed is string)
    (hi : session = some i) {res : Received} {beyond : List Byte}
    (hs : step host s (.io (.recvMessage res beyond)) = some t)
    (hmessage : ∀ N_host, s.pc = .recvMessage N_host → length i (v i).arrived N_host →
      res.bytes.length ≤ N_host.toNat →
      message i ((v i).arrived ++ res.bytes) (messageFromHome N_host res.bytes beyond)) :
    ∃ string, Orderly host length message session
      (Function.update v i ((v i).arrive res.bytes)) t.pc t.committed is
      string := by
  obtain ⟨N_host, hpc, hcommitted, hleads⟩ := recvMessage_leads hs
  have hhere := h.here i hi
  rw [hpc] at h hhere
  obtain ⟨hlength, hreplied⟩ := hhere
  rw [hcommitted]
  refine ⟨_, h.advance (x := (v i).arrive res.bytes) hi trivial id (h.met i hi) (string i) ?_
    fun hne => absurd hreplied hne⟩
  rcases hleads with ⟨hpc', hlen⟩ | ⟨_, ending, _, hpc'⟩
  · rw [hpc']
    exact ⟨hmessage N_host hpc hlength hlen, hreplied⟩
  · rw [hpc']
    trivial

/-- The count of a string is sent, after which the string is committed, or nothing is. -/
theorem Orderly.send (h : Orderly host length message session v s.pc s.committed is string)
    (hi : session = some i) {res : Except ℤ ℕ} (hs : step host s (.io (.send res)) = some t) :
    ∃ string, Orderly host length message session
      (Function.update v i ((v i).reply (Service.replied t))) t.pc
      t.committed is string := by
  obtain ⟨m, chars_count, hpc, hcommitted, hleads⟩ := send_leads hs
  have hhere := h.here i hi
  rw [hpc] at h hhere
  obtain ⟨hmessage, hreplied, rfl⟩ := hhere
  rw [hcommitted, Seen.reply, hreplied, List.nil_append]
  refine ⟨_, h.advance (x := { v i with replied := Service.replied t }) hi trivial id (h.met i hi) m
    ?_ fun hne => ?_⟩
  · rcases hleads with ⟨hpc, _⟩ | ⟨_, _, hpc | hpc | hpc, hnone⟩
    · rw [hpc]
      exact ⟨hmessage, rfl⟩
    · rw [hpc]
      trivial
    · rw [hpc]
      exact hnone
    · rw [hpc]
      trivial
  · rcases hleads with ⟨hpc, n, hsome, _⟩ | ⟨_, _, _, hnone⟩
    · rw [hpc]
      exact ⟨trivial, n, hsome⟩
    · exact absurd hnone hne

/-! ## Runs -/

theorem Peer.Move.seen {o : ByteOrder} {file : List Byte} {x x' : Peer} {pc : ClientPc} {io : ClientIo}
    (h : x.Move o file pc io x') (hlink : pc = .connect → x.link = .apart) : x'.seen = x.seen := by
  have hsend : ∀ bytes res dropped next, (x.send bytes res dropped next).seen = x.seen := by
    intro bytes res dropped next
    rcases x.send_cases bytes res dropped next with ⟨n, _, heq⟩ | ⟨errno, pc, _, _, heq⟩ <;> rw [heq]
    · rfl
    · rfl
  cases h with
  | connect => rw [Peer.seen, Peer.seen, hlink rfl]; rfl
  | sendSize | sendMessage => exact hsend ..
  | recv => rw [Peer.seen, Fifo.sent_recv]; rfl
  | _ => rfl

theorem Peer.Move.ne_connect {o : ByteOrder} {file : List Byte} {x x' : Peer} {pc : ClientPc}
    {io : ClientIo} (h : x.Move o file pc io x') : x'.pc ≠ .connect := by
  have hsend : ∀ bytes res dropped next, dropped ≠ ClientPc.connect → next ≠ ClientPc.connect →
      (x.send bytes res dropped next).pc ≠ .connect := by
    intro bytes res dropped next hdropped hnext
    rcases x.send_cases bytes res dropped next with ⟨n, _, heq⟩ | ⟨errno, pc, _, hpc, heq⟩ <;>
      rw [heq]
    · exact hnext
    · rcases hpc with rfl | rfl | rfl
      · exact hdropped
      · exact hnext
      · nofun
  cases h with
  | sendSize | sendMessage => exact hsend _ _ _ _ nofun nofun
  | _ => nofun

namespace Service
variable {order : ι → ByteOrder} {file : ι → List Byte} {M : Machine (Service ι) (Act ι)}
  {c : Service ι}

theorem seen_handedOver (x : Peer) (res : Except ℤ ℕ) :
    (handedOver x res).seen = x.seen.arrive (received x res).bytes := by
  cases res with
  | ok n => rfl
  | error errno =>
    rw [Seen.arrive, received, Except.map, Received.bytes, List.append_nil]
    rfl

theorem seen_told (x : Peer) (t : Server) : (told x t).seen = x.seen.reply (replied t) := by
  rw [Peer.seen, told, Fifo.sent_send]
  rfl

theorem seen_update (i : ι) (x : Peer) :
    (fun j => (Function.update c.peers i x j).seen) =
      Function.update (fun j => (c.peers j).seen) i x.seen := by
  funext j
  by_cases hj : j = i
  · subst hj
    rw [Function.update_self, Function.update_self]
  · rw [Function.update_of_ne hj, Function.update_of_ne hj]

/-- A client that has not called `connect` has no connection. -/
theorem Runs.unconnected (hM : Runs host order file M) (h : M.Reachable c) :
    ∀ i, (c.peers i).pc = .connect → (c.peers i).link = .apart := by
  refine hM.peers (P := fun _ x => x.pc = .connect → x.link = .apart) (fun _ _ => rfl)
    (fun c i o x _ hmove _ hpc => absurd hpc hmove.ne_connect) (fun i x hlink hx hpc => ?_)
    (fun _ _ _ hx => hx) (fun _ _ _ hx => hx) h
  rw [hx hpc] at hlink
  cases hlink

/-- What two `recv` calls of the server have to establish in the steps of `M`. -/
structure Reads (M : Machine (Service ι) (Act ι)) (length : ι → List Byte → BitVec 32 → Prop)
    (message : ι → List Byte → List Byte → Prop) : Prop where
  recvLength : ∀ c i res stale c', M.Reachable c → M.step c (.recvLength res stale) c' →
    c.session = some i → c.server.pc = .recvLength → (c.peers i).toServer.arrived = [] →
    (received (c.peers i) res).bytes.length ≤ 4 → length i (received (c.peers i) res).bytes
      (load .big (Pcc.received (received (c.peers i) res).bytes stale))
  recvMessage : ∀ c i res beyond c' N_host, M.Reachable c → M.step c (.recvMessage res beyond) c' →
    c.session = some i → c.server.pc = .recvMessage N_host →
    length i (c.peers i).toServer.arrived N_host →
    (received (c.peers i) res).bytes.length ≤ N_host.toNat →
    message i ((c.peers i).toServer.arrived ++ (received (c.peers i) res).bytes)
      (messageFromHome N_host (received (c.peers i) res).bytes beyond)

/-- The books are kept in every run. -/
theorem Runs.orderly (hM : Runs host order file M) (hreads : Reads M length message)
    (h : M.Reachable c) : ∃ is string, Orderly host length message c.session
      (fun i => (c.peers i).seen) c.server.pc c.server.committed is string := by
  obtain ⟨as, h⟩ := h
  refine h.history_invariant (I := fun _ c => ∃ is string, Orderly host length message c.session
    (fun i => (c.peers i).seen) c.server.pc c.server.committed is string) (fun c hc => ?_)
    fun as c a c' hrun ⟨is, string, hi⟩ hs => ?_
  · rw [hM.init c hc]
    exact ⟨[], fun _ => [], fun _ _ => ⟨rfl, rfl⟩, nofun, False.elim, nofun, List.nodup_nil, nofun,
      nofun, rfl, False.elim, fun _ hne => absurd rfl hne⟩
  cases hM.step c a c' hs with
  | sigint h => exact ⟨is, string, hi.sigint h⟩
  | tau h =>
    obtain ⟨is, hi⟩ := hi.tau h
    exact ⟨is, string, hi⟩
  | malloc h => exact ⟨is, string, hi.malloc h⟩
  | @accept i _ _ hsocket hlink h =>
    rw [setPeer, seen_update]
    have hunmet : (c.peers i).seen.accepted = false := by
      rw [Peer.seen, hlink]
      rfl
    obtain ⟨string, hi⟩ := hi.accept hunmet h
    exact ⟨is, string, hi⟩
  | acceptFails hsocket h => exact ⟨is, string, hi.acceptFails hsocket h⟩
  | recvLength hsession h =>
    rw [setPeer, seen_update, seen_handedOver]
    obtain ⟨string, hi⟩ := hi.recvLength hsession h fun hpc harrived hlen =>
      hreads.recvLength c _ _ _ _ hrun.reachable hs hsession hpc harrived hlen
    exact ⟨is, string, hi⟩
  | recvMessage hsession h =>
    rw [setPeer, seen_update, seen_handedOver]
    obtain ⟨string, hi⟩ := hi.recvMessage hsession h fun N_host hpc hlength hlen =>
      hreads.recvMessage c _ _ _ _ N_host hrun.reachable hs hsession hpc hlength hlen
    exact ⟨is, string, hi⟩
  | send hsession h =>
    rw [setPeer, seen_update, seen_told]
    obtain ⟨string, hi⟩ := hi.send hsession h
    exact ⟨is, string, hi⟩
  | client h =>
    rw [setPeer, seen_update, (Peer.turn_move h).seen (hM.unconnected hrun.reachable _),
      Function.update_eq_self]
    exact ⟨is, string, hi⟩

end Service
end OsCourse.Pcc
