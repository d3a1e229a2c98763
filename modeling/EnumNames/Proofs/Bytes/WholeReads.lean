import EnumNames.Proofs.Bytes.Stands

/-!
Reads from any position, one after the other. Main statement: a read yields what the next bytes
stand for and moves behind them, or it is refused at its position and moves nothing. Only a number
of 64 bits is read in two halves, and its first half stays read when the second one is missing.
-/

namespace EnumNames

/-- This is the number that bytes stand for, the most significant byte first. -/
def BigEndian.number (bytes : ByteArray) : Nat :=
  bytes.data.toList.foldl (fun number byte => 256 * number + byte.toNat) 0

namespace BigEndian

theorem number_byte (byte : UInt8) : number ⟨#[byte]⟩ = byte.toNat := by
  simp [number]

theorem number_encode16 (value : UInt16) : number (encode16 value) = value.toNat := by
  have bound := value.toNat_lt
  simp only [number, encode16, List.foldl_cons, List.foldl_nil, UInt8.toNat_ofNat']
  omega

theorem number_encode32 (value : UInt32) : number (encode32 value) = value.toNat := by
  have bound := value.toNat_lt
  simp only [number, encode32, List.foldl_cons, List.foldl_nil, UInt8.toNat_ofNat']
  omega

/-- Two halves of 32 bits make one number of 64 bits. -/
theorem number_append_encode32 (high low : UInt32) :
    number (encode32 high ++ encode32 low) = (decode64 high low).toNat := by
  have highBound := high.toNat_lt
  have lowBound := low.toNat_lt
  have first := number_encode32 high
  have second := number_encode32 low
  simp only [number] at first second
  simp only [number, ByteArray.data_append, Array.toList_append, List.foldl_append]
  rw [first]
  simp only [decode64, UInt64.toNat_ofNat', encode32, List.foldl_cons, List.foldl_nil,
    UInt8.toNat_ofNat'] at second ⊢
  omega

end BigEndian

namespace Reader

/-- What can be asked of a cursor. -/
inductive Request where
  | u1
  | u2
  | u4
  | i4
  | u8
  | bytes (width : Nat)
  | skip (width : Nat)
  deriving DecidableEq, Repr

/-- What a request yields; a skip yields nothing. -/
inductive Item where
  | unsigned (number : Nat)
  | signed (number : Int)
  | piece (bytes : ByteArray)
  | nothing

namespace Request

def width : Request → Nat
  | .u1 => 1
  | .u2 => 2
  | .u4 | .i4 => 4
  | .u8 => 8
  | .bytes width | .skip width => width

/-- A number of 64 bits asks for its halves one by one. -/
def wanted : Request → Nat
  | .u8 => 4
  | request => request.width

def perform : Request → Reader Item
  | .u1 => return .unsigned (← Reader.u1).toNat
  | .u2 => return .unsigned (← Reader.u2).toNat
  | .u4 => return .unsigned (← Reader.u4).toNat
  | .i4 => return .signed (← Reader.i4).toInt
  | .u8 => return .unsigned (← Reader.u8).toNat
  | .bytes width => return .piece (← Reader.bytes width)
  | .skip width => do
    Reader.skip width
    return .nothing

/-- The item that the bytes of the request stand for; a signed number is a two's complement. -/
def item (text : ByteArray) : Request → Item
  | .u1 | .u2 | .u4 | .u8 => .unsigned (BigEndian.number text)
  | .i4 => .signed ((BigEndian.number text : Int).bmod 0x100000000)
  | .bytes _ => .piece text
  | .skip _ => .nothing

/-- The request takes all of its bytes or none of them. -/
inductive Whole (request : Request) (cursor : Cursor) :
    EStateM.Result Failure Cursor Item → Prop where
  | done (text : ByteArray) (size : text.size = request.width)
      (stands : Stands cursor.bytes cursor.position text) :
      Whole request cursor (.ok (request.item text) (cursor.advance request.width))
  | refused (missing : cursor.bytes.size < cursor.position + request.width) :
      Whole request cursor (.error
        (.malformedClass cursor.position (.needBytes request.wanted cursor.remaining)) cursor)

/-- There are bytes for the first half of a 64-bit number only. -/
def Halved (request : Request) (cursor : Cursor) : Prop :=
  request = .u8 ∧ cursor.position + 4 ≤ cursor.bytes.size ∧
    cursor.bytes.size < cursor.position + 8

/-- A request is whole unless it is halved; then the first half stays read. -/
inductive Answers (request : Request) (cursor : Cursor) :
    EStateM.Result Failure Cursor Item → Prop where
  | whole {result : EStateM.Result Failure Cursor Item} (notHalved : ¬ request.Halved cursor)
      (whole : request.Whole cursor result) : Answers request cursor result
  | halved (halved : request.Halved cursor) :
      Answers request cursor (.error
        (.malformedClass (cursor.position + 4) (.needBytes 4 (cursor.advance 4).remaining))
        (cursor.advance 4))

end Request

/-- The reader takes a value in its encoding, or there are too few bytes for it. -/
inductive Draws {α : Type} (reader : Reader α) (encode : α → ByteArray) (width : Nat)
    (cursor : Cursor) : Prop where
  | drawn (value : α) (size : (encode value).size = width)
      (stands : Stands cursor.bytes cursor.position (encode value))
      (done : reader cursor = .ok value (cursor.advance width))
  | short (missing : cursor.bytes.size < cursor.position + width)
      (failed : reader cursor = short width cursor)

theorem draws_u1 (cursor : Cursor) : u1.Draws (fun byte => ⟨#[byte]⟩) 1 cursor := by
  by_cases inside : cursor.position + 1 ≤ cursor.bytes.size
  · exact .drawn cursor.bytes[cursor.position] rfl (Access.u1_eq_ok.mp (dif_pos inside))
      (dif_pos inside)
  · exact .short (Nat.not_le.mp inside) (dif_neg inside)

theorem draws_u2 (cursor : Cursor) : u2.Draws BigEndian.encode16 2 cursor := by
  by_cases inside : cursor.position + 2 ≤ cursor.bytes.size
  · exact .drawn _ rfl (Access.u2_eq_ok.mp (dif_pos inside)) (dif_pos inside)
  · exact .short (Nat.not_le.mp inside) (dif_neg inside)

theorem draws_u4 (cursor : Cursor) : u4.Draws BigEndian.encode32 4 cursor := by
  by_cases inside : cursor.position + 4 ≤ cursor.bytes.size
  · have stands := Access.i4?_eq_some.mp (dif_pos inside)
    rw [UInt32.toUInt32_toInt32] at stands
    exact .drawn _ rfl stands (dif_pos inside)
  · exact .short (Nat.not_le.mp inside) (dif_neg inside)

theorem draws_bytes (width : Nat) (cursor : Cursor) : (bytes width).Draws id width cursor := by
  by_cases inside : cursor.position + width ≤ cursor.bytes.size
  · obtain ⟨piece, size, stands⟩ := Stands.exists_of_le inside
    refine .drawn piece size stands ((if_pos inside).trans ?_)
    rw [← size, stands.extract]
  · exact .short (Nat.not_le.mp inside) (if_neg inside)

/-- A skip passes over the bytes that it could have read. -/
theorem skip_eq (width : Nat) : skip width = bytes width >>= fun _ => pure () := by
  funext cursor
  rw [bind_apply]
  by_cases inside : cursor.position + width ≤ cursor.bytes.size
  · rw [skip, bytes, if_pos inside, if_pos inside]
    rfl
  · rw [skip, bytes, if_neg inside, if_neg inside]
    rfl

namespace Request

variable {request : Request} {cursor : Cursor}

/-- What is drawn is made into the item of the request. -/
theorem whole_of_draws {α : Type} {reader : Reader α} {encode : α → ByteArray} {make : α → Item}
    (draws : reader.Draws encode request.width cursor) (wanted : request.wanted = request.width)
    (item : ∀ value, make value = request.item (encode value)) :
    request.Whole cursor ((reader >>= fun value => pure (make value)) cursor) := by
  cases draws with
  | drawn value size stands done =>
    have made : (reader >>= fun value => pure (make value)) cursor =
        .ok (request.item (encode value)) (cursor.advance request.width) :=
      bind_eq_ok.mpr ⟨value, _, done, congrArg (EStateM.Result.ok · _) (item value)⟩
    rw [made]
    exact .done (encode value) size stands
  | short missing failed =>
    rw [bind_apply, failed, short, ← wanted]
    exact .refused missing

/-- The second half of a 64-bit number is drawn behind the first one. -/
theorem answers_u8 (cursor : Cursor) : Answers .u8 cursor (perform .u8 cursor) := by
  have halves : perform .u8 = Reader.u4 >>= fun high => Reader.u4 >>= fun low =>
      pure (.unsigned (BigEndian.decode64 high low).toNat) := by
    simp only [perform, Reader.u8, bind_assoc, pure_bind]
  rw [halves]
  cases draws_u4 cursor with
  | drawn high _ stands done =>
    have inside : cursor.position + 4 ≤ cursor.bytes.size := stands.within
    cases draws_u4 (cursor.advance 4) with
    | drawn low _ behind again =>
      have both : (Reader.u4 >>= fun high => Reader.u4 >>= fun low =>
          pure (Item.unsigned (BigEndian.decode64 high low).toNat)) cursor =
            .ok (.unsigned (BigEndian.decode64 high low).toNat) (cursor.advance 8) :=
        bind_eq_ok.mpr ⟨high, _, done, bind_eq_ok.mpr ⟨low, _, again, rfl⟩⟩
      rw [both, ← BigEndian.number_append_encode32]
      have room : cursor.position + 4 + 4 ≤ cursor.bytes.size := behind.within
      exact .whole (fun halved => by unfold Halved at halved; omega)
        (.done _ rfl (stands_append.mpr ⟨stands, behind⟩))
    | short missing failed =>
      rw [bind_apply, done]
      dsimp only
      rw [bind_apply, failed]
      exact .halved ⟨rfl, inside, missing⟩
  | short missing failed =>
    rw [bind_apply, failed]
    refine .whole (fun halved => ?_) (.refused (Nat.lt_add_right 4 missing))
    exact Nat.not_le.mpr missing halved.2.1

/-- Apart from numbers of 64 bits, everything is read in one piece. -/
theorem answers_of_whole {result : EStateM.Result Failure Cursor Item} (other : request ≠ .u8)
    (whole : request.Whole cursor result) : request.Answers cursor result :=
  .whole (fun halved => other halved.1) whole

/-- A signed number is the two's complement of the unsigned one. -/
theorem toInt_eq_bmod (value : UInt32) :
    value.toInt32.toInt = (value.toNat : Int).bmod 0x100000000 :=
  BitVec.toInt_eq_toNat_bmod value.toBitVec

theorem perform_answers (request : Request) (cursor : Cursor) :
    request.Answers cursor (request.perform cursor) := by
  cases request with
  | u1 =>
    refine answers_of_whole (by simp) (whole_of_draws (draws_u1 cursor) rfl fun byte => ?_)
    rw [item, BigEndian.number_byte]
  | u2 =>
    refine answers_of_whole (by simp) (whole_of_draws (draws_u2 cursor) rfl fun value => ?_)
    rw [item, BigEndian.number_encode16]
  | u4 =>
    refine answers_of_whole (by simp) (whole_of_draws (draws_u4 cursor) rfl fun value => ?_)
    rw [item, BigEndian.number_encode32]
  | i4 =>
    have signed : perform .i4 = Reader.u4 >>= fun value => pure (.signed value.toInt32.toInt) := by
      simp only [perform, Reader.i4, bind_assoc, pure_bind]
    rw [signed]
    refine answers_of_whole (by simp) (whole_of_draws (draws_u4 cursor) rfl fun value => ?_)
    rw [item, BigEndian.number_encode32, toInt_eq_bmod]
  | u8 => exact answers_u8 cursor
  | bytes width =>
    exact answers_of_whole (by simp) (whole_of_draws (draws_bytes width cursor) rfl fun _ => rfl)
  | skip width =>
    have passed : perform (.skip width) = Reader.bytes width >>= fun _ => pure .nothing := by
      simp only [perform, skip_eq, bind_assoc, pure_bind]
    rw [passed]
    exact answers_of_whole (by simp) (whole_of_draws (draws_bytes width cursor) rfl fun _ => rfl)

/-- A refused request does not end a sequence of requests. -/
def performAll (cursor : Cursor) : List Request → Cursor
  | [] => cursor
  | request :: rest =>
    match request.perform cursor with
    | .ok _ next | .error _ next => performAll next rest

/-- The cursor has moved forward over the same bytes, but not past their end. -/
structure Onward (cursor next : Cursor) : Prop where
  bytes : next.bytes = cursor.bytes
  forward : cursor.position ≤ next.position
  inside : next.position ≤ max cursor.position cursor.bytes.size

theorem Onward.refl (cursor : Cursor) : Onward cursor cursor :=
  ⟨rfl, Nat.le_refl _, Nat.le_max_left _ _⟩

theorem Onward.trans {first second third : Cursor} (early : Onward first second)
    (late : Onward second third) : Onward first third where
  bytes := late.bytes.trans early.bytes
  forward := Nat.le_trans early.forward late.forward
  inside := by
    have later := late.inside
    rw [early.bytes] at later
    have earlier := early.inside
    omega

theorem onward_advance {width : Nat} (room : cursor.position + width ≤ cursor.bytes.size) :
    Onward cursor (cursor.advance width) :=
  ⟨rfl, Nat.le_add_right _ _, Nat.le_trans room (Nat.le_max_right _ _)⟩

/-- Whatever a request is answered with, the cursor moves onward. -/
theorem Answers.onward {result : EStateM.Result Failure Cursor Item}
    (answers : request.Answers cursor result) : ∃ next, Onward cursor next ∧
      ((∃ item, result = .ok item next) ∨ ∃ failure, result = .error failure next) := by
  cases answers with
  | whole _ whole =>
    cases whole with
    | done text size stands =>
      exact ⟨_, onward_advance (size ▸ stands.within), .inl ⟨_, rfl⟩⟩
    | refused missing => exact ⟨_, .refl cursor, .inr ⟨_, rfl⟩⟩
  | halved halved => exact ⟨_, onward_advance halved.2.1, .inr ⟨_, rfl⟩⟩

/-- The step is done already; the induction is on the requests. -/
theorem onward_performAll (cursor : Cursor) (requests : List Request) :
    Onward cursor (performAll cursor requests) := by
  induction requests generalizing cursor with
  | nil => exact .refl cursor
  | cons request rest inductionHypothesis =>
    obtain ⟨next, onward, ⟨_, done⟩ | ⟨_, failed⟩⟩ := (perform_answers request cursor).onward
    · rw [performAll, done]
      exact onward.trans (inductionHypothesis next)
    · rw [performAll, failed]
      exact onward.trans (inductionHypothesis next)

/-- In every sequence of requests, from any position, each request is answered as a whole, unless
only the first half of a 64-bit number is there. -/
theorem reads_whole_or_halved (bytes : ByteArray) (start : Nat) (earlier : List Request)
    (request : Request) :
    let cursor := performAll ⟨bytes, start⟩ earlier
    Onward ⟨bytes, start⟩ cursor ∧ request.Answers cursor (request.perform cursor) :=
  ⟨onward_performAll _ _, perform_answers _ _⟩

/-- The first half of a 64-bit number stays read when the second half is missing. -/
theorem first_half_stays_read :
    let cursor : Cursor := ⟨⟨#[1, 2, 3, 4, 5]⟩, 0⟩
    perform .u8 cursor = .error (.malformedClass 4 (.needBytes 4 1)) ⟨⟨#[1, 2, 3, 4, 5]⟩, 4⟩ ∧
      ¬ Whole .u8 cursor (perform .u8 cursor) := by
  intro cursor
  have stopped : perform .u8 cursor =
      .error (.malformedClass 4 (.needBytes 4 1)) ⟨⟨#[1, 2, 3, 4, 5]⟩, 4⟩ := rfl
  refine ⟨stopped, fun whole => ?_⟩
  rw [stopped] at whole
  nomatch whole

end Request

end Reader

end EnumNames
