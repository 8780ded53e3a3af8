import Ned.Editor.Protocol.FrameTransport
import Mathlib.Algebra.Group.Nat.Defs

/-!
# Frames round-trip when their bodies fit

The reader looks at the front of its buffer for a frame, so it does not matter how the stream is cut.
What it refuses is a body past the size cap. The writer looks at the payload only, and a compressed
body can be longer.
-/

namespace Ned.Editor.Protocol

open Library

variable {zstd : Zstd} {payload body frame bytes : List UInt8} {length : Nat} {flags : UInt8}

/-! ## Headers -/

@[simp] theorem header_length (length : Nat) (flags : UInt8) :
    (header length flags).length = kFrameHeaderBytes := rfl

theorem kFrameFlagZstd_ok (h : flags = 0 ∨ flags = kFrameFlagZstd) :
    flags &&& ~~~kFrameFlagZstd = 0 := by
  rcases h with rfl | rfl <;> decide

theorem bytes_value {a b c d : Nat} (hb : b < 256) (hc : c < 256) (hd : d < 256) :
    a <<< 24 ||| b <<< 16 ||| c <<< 8 ||| d = ((a * 256 + b) * 256 + c) * 256 + d := by
  have hab : a <<< 24 ||| b <<< 16 = (a * 256 + b) <<< 16 := by
    rw [← Nat.shiftLeft_add_eq_or_of_lt (by rw [Nat.shiftLeft_eq]; omega)]
    simp only [Nat.shiftLeft_eq]
    omega
  have habc : (a * 256 + b) <<< 16 ||| c <<< 8 = ((a * 256 + b) * 256 + c) <<< 8 := by
    rw [← Nat.shiftLeft_add_eq_or_of_lt (by rw [Nat.shiftLeft_eq]; omega)]
    simp only [Nat.shiftLeft_eq]
    omega
  rw [hab, habc, ← Nat.shiftLeft_add_eq_or_of_lt (by omega), Nat.shiftLeft_eq]

theorem header_value {value : Nat} (h : value < 2 ^ 32) :
    (UInt8.ofNat (value >>> 24)).toNat <<< 24 ||| (UInt8.ofNat (value >>> 16)).toNat <<< 16 |||
      (UInt8.ofNat (value >>> 8)).toNat <<< 8 ||| (UInt8.ofNat value).toNat = value := by
  simp only [UInt8.toNat_ofNat', Nat.shiftRight_eq_div_pow]
  rw [bytes_value (Nat.mod_lt _ (by decide)) (Nat.mod_lt _ (by decide)) (Nat.mod_lt _ (by decide))]
  omega

/-- The reader reads the length the writer wrote, and refuses it when it is past the cap. -/
theorem parseHeader_header (h : length < 2 ^ 32) (hflags : flags = 0 ∨ flags = kFrameFlagZstd) :
    parseHeader (header length flags) =
      if length > kMaxFrameBytes then .error "ned: frame length exceeds the size cap"
      else .ok { length := length, flags := flags } := by
  have hvalue := header_value (Nat.mod_lt length (Nat.two_pow_pos 32))
  rw [Nat.mod_eq_of_lt h] at hvalue
  unfold parseHeader header
  simp only [List.getD_cons_zero, List.getD_cons_succ, Nat.mod_eq_of_lt h, hvalue,
    kFrameFlagZstd_ok hflags, ne_eq, not_true_eq_false, if_false]

/-! ## Reading the front of the buffer -/

/-- What `TakeFrames` finds at the front of its buffer. -/
def frontFrame (zstd : Zstd) (bytes : List UInt8) : Front (List UInt8) :=
  if kFrameHeaderBytes ≤ bytes.length then
    match parseHeader (bytes.take kFrameHeaderBytes) with
    | .error _ => .bad
    | .ok header =>
        if bytes.length - kFrameHeaderBytes < header.length then .short
        else
          match frameBody zstd header ((bytes.drop kFrameHeaderBytes).take header.length) with
          | .error _ => .bad
          | .ok frame => .token (kFrameHeaderBytes + header.length) frame
  else .short

/-- What has been found stays found when more bytes come. -/
theorem frontFrame_append (h : frontFrame zstd bytes ≠ .short) (more : List UInt8) :
    frontFrame zstd (bytes ++ more) = frontFrame zstd bytes := by
  unfold frontFrame at h ⊢
  by_cases hlong : kFrameHeaderBytes ≤ bytes.length
  · have hlonger : kFrameHeaderBytes ≤ (bytes ++ more).length := by
      rw [List.length_append]
      omega
    rw [if_pos hlong] at h ⊢
    rw [if_pos hlonger, List.take_append_of_le_length hlong]
    cases hparse : parseHeader (bytes.take kFrameHeaderBytes) with
    | error e => rfl
    | ok hdr =>
        simp only [hparse] at h ⊢
        by_cases hwhole : bytes.length - kFrameHeaderBytes < hdr.length
        · rw [if_pos hwhole] at h
          exact absurd rfl h
        · rw [if_neg hwhole, if_neg (by rw [List.length_append]; omega),
            List.drop_append_of_le_length hlong,
            List.take_append_of_le_length (by rw [List.length_drop]; omega)]
  · rw [if_neg hlong] at h
    exact absurd rfl h

theorem frontFrame_token {n : Nat} (h : frontFrame zstd bytes = .token n frame) :
    0 < n ∧ n ≤ bytes.length := by
  unfold frontFrame at h
  split at h
  · split at h
    · cases h
    · split at h
      · cases h
      · split at h
        · cases h
        · simp only [Front.token.injEq] at h
          simp only [kFrameHeaderBytes] at *
          omega
  · cases h

def frameScanner (zstd : Zstd) : Scanner UInt8 (List UInt8) where
  front := frontFrame zstd
  front_nil := rfl
  token_pos h := (frontFrame_token h).1
  token_le h := (frontFrame_token h).2
  token_append more h := (frontFrame_append (by rw [h]; nofun) more).trans h
  bad_append more h := (frontFrame_append (by rw [h]; nofun) more).trans h

/-- Frames are taken up to one that is cut short, unless there is a bad one before. -/
theorem takeFrames_reads (zstd : Zstd) (bytes : List UInt8) :
    (∃ values rest, takeFrames zstd bytes = .ok (values, rest) ∧
        (frameScanner zstd).Reads bytes values rest ∧ frontFrame zstd rest = .short) ∨
      ∃ e values rest, takeFrames zstd bytes = .error e ∧
        (frameScanner zstd).Reads bytes values rest ∧ frontFrame zstd rest = .bad := by
  induction bytes using takeFrames.induct with
  | case1 bytes hlong ih =>
      rw [takeFrames, if_pos hlong]
      have hfront : frontFrame zstd bytes = _ := if_pos hlong
      cases hparse : parseHeader (bytes.take kFrameHeaderBytes) with
      | error e =>
          rw [hparse] at hfront
          exact Or.inr ⟨e, [], bytes, rfl, .done, hfront⟩
      | ok hdr =>
          simp only [hparse] at hfront
          simp only [bind, Except.bind, pure, Except.pure]
          by_cases hshort : bytes.length - kFrameHeaderBytes < hdr.length
          · rw [if_pos hshort] at hfront
            rw [if_pos hshort]
            exact Or.inl ⟨[], bytes, rfl, .done, hfront⟩
          · rw [if_neg hshort] at hfront
            rw [if_neg hshort]
            cases hbody : frameBody zstd hdr ((bytes.drop kFrameHeaderBytes).take hdr.length) with
            | error e =>
                simp only [hbody] at hfront
                exact Or.inr ⟨e, [], bytes, rfl, .done, hfront⟩
            | ok frame =>
                simp only [hbody] at hfront
                rcases ih hdr with ⟨values, rest, htake, hreads, hrest⟩ |
                  ⟨e, values, rest, htake, hreads, hrest⟩
                · rw [htake]
                  exact Or.inl ⟨frame :: values, rest, rfl, .token hfront hreads, hrest⟩
                · rw [htake]
                  exact Or.inr ⟨e, frame :: values, rest, rfl, .token hfront hreads, hrest⟩
  | case2 bytes hshort =>
      rw [takeFrames, if_neg hshort]
      exact Or.inl ⟨[], bytes, rfl, .done, if_neg hshort⟩

/-- `TakeFrames` reads its buffer as the scanner does. -/
theorem takeFrames_ok (h : ((frameScanner zstd).scan bytes).bad = false) :
    takeFrames zstd bytes =
      .ok (((frameScanner zstd).scan bytes).values, ((frameScanner zstd).scan bytes).rest) := by
  rcases takeFrames_reads zstd bytes with ⟨values, rest, htake, hreads, hrest⟩ |
    ⟨e, values, rest, -, hreads, hrest⟩
  · have hscan : (frameScanner zstd).scan bytes = ⟨values, rest, false⟩ :=
      Scanner.scan_eq hreads ⟨fun _ => hrest, nofun⟩
    rw [htake, hscan]
  · have hscan : (frameScanner zstd).scan bytes = ⟨values, rest, true⟩ :=
      Scanner.scan_eq hreads ⟨nofun, fun _ => hrest⟩
    rw [hscan] at h
    cases h

theorem takeFrames_bad (h : ((frameScanner zstd).scan bytes).bad = true) :
    ∃ e, takeFrames zstd bytes = .error e := by
  rcases takeFrames_reads zstd bytes with ⟨values, rest, -, hreads, hrest⟩ |
    ⟨e, values, rest, htake, -, -⟩
  · have hscan : (frameScanner zstd).scan bytes = ⟨values, rest, false⟩ :=
      Scanner.scan_eq hreads ⟨fun _ => hrest, nofun⟩
    rw [hscan] at h
    cases h
  · exact ⟨e, htake⟩

/-- A stream that is not refused is read the same whichever way it is cut. -/
theorem feedFrames_scan (pieces : List (List UInt8)) (bytes : List UInt8)
    (h : ((frameScanner zstd).scan (bytes ++ pieces.flatten)).bad = false)
    (hshort : frontFrame zstd bytes = .short) :
    feedFrames zstd bytes pieces =
      .ok (((frameScanner zstd).scan (bytes ++ pieces.flatten)).values,
        ((frameScanner zstd).scan (bytes ++ pieces.flatten)).rest) := by
  induction pieces generalizing bytes with
  | nil =>
      have hscan : (frameScanner zstd).scan bytes = ⟨[], bytes, false⟩ :=
        Scanner.scan_eq .done ⟨fun _ => hshort, nofun⟩
      rw [List.flatten_nil, List.append_nil, hscan]
      rfl
  | cons piece pieces ih =>
      rw [List.flatten_cons, ← List.append_assoc] at h ⊢
      rw [Scanner.scan_append] at h ⊢
      cases hbad : ((frameScanner zstd).scan (bytes ++ piece)).bad with
      | true =>
          rw [hbad, if_pos rfl] at h
          cases hbad.symm.trans h
      | false =>
          rw [hbad, if_neg Bool.false_ne_true] at h
          simp only [if_neg Bool.false_ne_true]
          have hrest := (Scanner.scan_stops (frameScanner zstd) (bytes ++ piece)).short hbad
          rw [feedFrames, takeFrames_ok hbad]
          simp only [bind, Except.bind, pure, Except.pure]
          rw [ih _ h hrest]

/-! ## Frames of the writer -/

/-- What the writer puts into a frame. -/
inductive Encodes (zstd : Zstd) (payload : List UInt8) (compress : Bool) : UInt8 → List UInt8 → Prop
  | plain (h : ¬(compress = true ∧ payload.length ≥ kCompressMinBytes)) :
      Encodes zstd payload compress 0 payload
  | compressed {body : List UInt8} (hcompress : compress = true)
      (hlong : payload.length ≥ kCompressMinBytes) (h : zstd.compress payload = .ok body) :
      Encodes zstd payload compress kFrameFlagZstd body

section Frame

variable {compress : Bool}

theorem compressed_ne_nil (hlawful : zstd.Lawful) (h : zstd.compress payload = .ok body) :
    body ≠ [] := by
  rintro rfl
  cases hlawful.empty.symm.trans (hlawful.contentSize h)

theorem encodeFrame_encodes (hlawful : zstd.Lawful)
    (h : encodeFrame zstd payload compress = .ok frame) :
    payload.length ≤ kMaxFrameBytes ∧ ∃ flags body, Encodes zstd payload compress flags body ∧
      frame = header body.length flags ++ body := by
  unfold encodeFrame compressIfWorthIt at h
  simp only [bind, Except.bind, pure, Except.pure] at h
  by_cases hmax : payload.length > kMaxFrameBytes
  · rw [if_pos hmax] at h
    cases h
  · rw [if_neg hmax] at h
    refine ⟨Nat.le_of_not_lt hmax, ?_⟩
    by_cases hworth : compress = true ∧ payload.length ≥ kCompressMinBytes
    · rw [if_pos hworth, compressFrame] at h
      cases hbody : zstd.compress payload with
      | error e =>
          rw [hbody] at h
          cases h
      | ok body =>
          rw [hbody] at h
          simp only [if_neg (compressed_ne_nil hlawful hbody)] at h
          exact ⟨_, body, .compressed hworth.1 hworth.2 hbody, (Except.ok.inj h).symm⟩
    · rw [if_neg hworth] at h
      exact ⟨0, payload, .plain hworth, (Except.ok.inj h).symm⟩

theorem Encodes.length_lt (hlawful : zstd.Lawful) (h : Encodes zstd payload compress flags body)
    (hpayload : payload.length ≤ kMaxFrameBytes) : body.length < 2 ^ 32 := by
  cases h with
  | plain =>
      simp only [kMaxFrameBytes] at hpayload
      omega
  | compressed _ _ hbody =>
      have hbound := hlawful.bound hbody
      simp only [kMaxFrameBytes, compressBound] at hpayload hbound
      split at hbound <;> omega

theorem Encodes.flags_ok (h : Encodes zstd payload compress flags body) :
    flags = 0 ∨ flags = kFrameFlagZstd := by
  cases h with
  | plain => exact Or.inl rfl
  | compressed => exact Or.inr rfl

theorem Encodes.frameBody (hlawful : zstd.Lawful) (h : Encodes zstd payload compress flags body)
    (hpayload : payload.length ≤ kMaxFrameBytes) (length : Nat) :
    frameBody zstd { length := length, flags := flags } body = .ok payload := by
  cases h with
  | plain =>
      have hflag : (0 : UInt8) &&& kFrameFlagZstd = 0 := by decide
      simp only [Protocol.frameBody]
      rw [if_neg (not_not_intro hflag)]
  | compressed _ _ hbody =>
      have hflag : kFrameFlagZstd &&& kFrameFlagZstd ≠ 0 := by decide
      simp only [Protocol.frameBody, decompressFrame, hlawful.contentSize hbody,
        hlawful.inverts hbody]
      rw [if_pos hflag, if_neg (Nat.not_lt_of_le hpayload), if_neg (not_not_intro rfl)]

theorem Encodes.front (hlawful : zstd.Lawful) (h : Encodes zstd payload compress flags body)
    (hpayload : payload.length ≤ kMaxFrameBytes) (hbody : body.length ≤ kMaxFrameBytes) :
    frontFrame zstd (header body.length flags ++ body) =
      .token (header body.length flags ++ body).length payload := by
  have hparse := parseHeader_header (h.length_lt hlawful hpayload) h.flags_ok
  rw [if_neg (Nat.not_lt_of_le hbody)] at hparse
  have htake : (header body.length flags ++ body).take kFrameHeaderBytes = header body.length flags :=
    List.take_left' (header_length ..)
  have hdrop : (header body.length flags ++ body).drop kFrameHeaderBytes = body :=
    List.drop_left' (header_length ..)
  have hlength : (header body.length flags ++ body).length = kFrameHeaderBytes + body.length := by
    rw [List.length_append, header_length]
  unfold frontFrame
  rw [if_pos (by omega), htake, hparse]
  simp only
  rw [if_neg (by omega), hdrop, List.take_length, h.frameBody hlawful hpayload, hlength]

theorem Encodes.front_bad (hlawful : zstd.Lawful) (h : Encodes zstd payload compress flags body)
    (hpayload : payload.length ≤ kMaxFrameBytes) (hbody : kMaxFrameBytes < body.length) :
    frontFrame zstd (header body.length flags ++ body) = .bad := by
  have hparse := parseHeader_header (h.length_lt hlawful hpayload) h.flags_ok
  rw [if_pos hbody] at hparse
  have htake : (header body.length flags ++ body).take kFrameHeaderBytes = header body.length flags :=
    List.take_left' (header_length ..)
  unfold frontFrame
  rw [if_pos (by rw [List.length_append, header_length]; omega), htake, hparse]

end Frame

/-! ## Streams -/

/-- Nothing that is compressed gets longer than a frame may be. -/
def Fits (zstd : Zstd) (payload : List UInt8) (compress : Bool) : Prop :=
  compress = true → kCompressMinBytes ≤ payload.length → ∀ body, zstd.compress payload = .ok body →
    body.length ≤ kMaxFrameBytes

theorem Encodes.fits_iff {compress : Bool} (h : Encodes zstd payload compress flags body)
    (hpayload : payload.length ≤ kMaxFrameBytes) :
    Fits zstd payload compress ↔ body.length ≤ kMaxFrameBytes := by
  cases h with
  | plain hplain => exact ⟨fun _ => hpayload, fun _ hcompress hlong => absurd ⟨hcompress, hlong⟩ hplain⟩
  | compressed hcompress hlong hbody =>
      refine ⟨fun hfits => hfits hcompress hlong _ hbody, fun hle _ _ body' hbody' => ?_⟩
      cases hbody.symm.trans hbody'
      exact hle

/-- The frames of a stream are read one after the other, up to one that does not fit. -/
theorem reads_stream (hlawful : zstd.Lawful) {inputs : List (List UInt8 × Bool)}
    {frames : List (List UInt8)}
    (h : inputs.mapM (fun input => encodeFrame zstd input.1 input.2) = .ok frames) :
    ((∀ input ∈ inputs, Fits zstd input.1 input.2) ∧
        (frameScanner zstd).Reads frames.flatten (inputs.map Prod.fst) []) ∨
      (¬∀ input ∈ inputs, Fits zstd input.1 input.2) ∧ ∃ values rest,
        (frameScanner zstd).Reads frames.flatten values rest ∧ frontFrame zstd rest = .bad := by
  induction inputs generalizing frames with
  | nil =>
      cases h
      exact Or.inl ⟨nofun, .done⟩
  | cons input inputs ih =>
      rw [List.mapM_cons] at h
      cases hframe : encodeFrame zstd input.1 input.2 with
      | error e =>
          rw [hframe] at h
          cases h
      | ok frame =>
          cases hmore : inputs.mapM (fun input => encodeFrame zstd input.1 input.2) with
          | error e =>
              rw [hframe, hmore] at h
              cases h
          | ok more =>
              rw [hframe, hmore] at h
              cases h
              obtain ⟨hpayload, flags, body, hencodes, rfl⟩ := encodeFrame_encodes hlawful hframe
              rw [List.flatten_cons, List.forall_mem_cons, hencodes.fits_iff hpayload]
              by_cases hbody : body.length ≤ kMaxFrameBytes
              · have hone := hencodes.front hlawful hpayload hbody
                have hfront := (frontFrame_append (by rw [hone]; nofun) more.flatten).trans hone
                rcases ih hmore with ⟨hfits, hreads⟩ | ⟨hfits, values, rest, hreads, hbad⟩
                · refine Or.inl ⟨⟨hbody, hfits⟩, .token hfront ?_⟩
                  rwa [List.drop_left]
                · refine Or.inr ⟨fun hall => hfits hall.2, _ :: values, rest, .token hfront ?_, hbad⟩
                  rwa [List.drop_left]
              · have hbad := hencodes.front_bad hlawful hpayload (Nat.lt_of_not_le hbody)
                exact Or.inr ⟨fun hall => hbody hall.1, [], _, .done,
                  (frontFrame_append (by rw [hbad]; nofun) more.flatten).trans hbad⟩

theorem takeFrames_refuses {values : List (List UInt8)} {stream rest : List UInt8}
    (hreads : (frameScanner zstd).Reads stream values rest) (hbad : frontFrame zstd rest = .bad) :
    ∃ e, takeFrames zstd stream = .error e := by
  have hscan : (frameScanner zstd).scan stream = ⟨values, rest, true⟩ :=
    Scanner.scan_eq hreads ⟨nofun, fun _ => hbad⟩
  exact takeFrames_bad (by rw [hscan])

/-- The stream of the writer round-trips exactly when every compressed body fits a frame. -/
theorem frames_roundTrip_iff (hlawful : zstd.Lawful) {inputs : List (List UInt8 × Bool)}
    {frames : List (List UInt8)}
    (h : inputs.mapM (fun input => encodeFrame zstd input.1 input.2) = .ok frames) :
    RoundTrips zstd frames.flatten (inputs.map Prod.fst) ↔
      ∀ input ∈ inputs, Fits zstd input.1 input.2 := by
  rcases reads_stream hlawful h with ⟨hfits, hreads⟩ | ⟨hfits, values, rest, hreads, hbad⟩
  · refine ⟨fun _ => hfits, fun _ => ?_⟩
    have hscan : (frameScanner zstd).scan frames.flatten = ⟨inputs.map Prod.fst, [], false⟩ :=
      Scanner.scan_eq hreads ⟨fun _ => rfl, nofun⟩
    refine ⟨fun pieces hpieces => ?_, fun part ⟨more, hmore⟩ => ?_⟩
    · have hfeed := @feedFrames_scan zstd pieces []
      rw [List.nil_append, hpieces, hscan] at hfeed
      exact hfeed rfl rfl
    · have hpart : ((frameScanner zstd).scan part).bad = false := by
        cases hpart : ((frameScanner zstd).scan part).bad with
        | false => rfl
        | true =>
            rw [← hmore, Scanner.scan_append, hpart, if_pos rfl] at hscan
            have hbad : ((frameScanner zstd).scan part).bad = false := congrArg Scanned.bad hscan
            cases hpart.symm.trans hbad
      exact ⟨_, takeFrames_ok hpart⟩
  · refine ⟨fun hround => ?_, fun hall => absurd hall hfits⟩
    obtain ⟨e, herror⟩ := takeFrames_refuses hreads hbad
    obtain ⟨taken, htaken⟩ := hround.accepted frames.flatten (List.prefix_refl _)
    cases herror.symm.trans htaken

/-! ## Bytes that zstd cannot compress -/

def magicNumber : List UInt8 := [0x28, 0xB5, 0x2F, 0xFD]

/-- zstd on bytes it cannot compress: it stores them in a frame of its own. -/
def storing : Zstd where
  compress payload := .ok (magicNumber ++ payload)
  frameContentSize body := if magicNumber <+: body then some (body.length - 4) else none
  decompress body size :=
    if body.length - 4 ≤ size then .ok (body.drop 4) else .error "Destination buffer is too small"

theorem storing_lawful : storing.Lawful where
  bound {payload body} h := by
    cases h
    rw [List.length_append, compressBound]
    simp only [magicNumber, List.length_cons, List.length_nil]
    split <;> omega
  contentSize {payload body} h := by
    cases h
    simp only [storing]
    rw [if_pos (List.prefix_append ..), List.length_append]
    simp only [magicNumber, List.length_cons, List.length_nil]
    congr 1
    omega
  inverts {payload body} h := by
    cases h
    simp only [storing]
    rw [if_pos (by simp [magicNumber])]
    rfl
  empty := rfl

theorem frames_roundTrip_iff_sample :
    RoundTrips storing (header 2 0 ++ [0x68, 0x69] ++ header 0 0) [[0x68, 0x69], []] :=
  (@frames_roundTrip_iff storing storing_lawful [([0x68, 0x69], true), ([], false)]
    [header 2 0 ++ [0x68, 0x69], header 0 0] rfl).2 fun input hinput _ hlong => by
      simp only [List.mem_cons, List.not_mem_nil, or_false] at hinput
      rcases hinput with rfl | rfl <;> cases (by decide : ¬kCompressMinBytes ≤ _) hlong

/-- The bytes of a linear congruential generator. -/
def noise : Nat → Nat → List UInt8
  | _, 0 => []
  | seed, n + 1 => .ofNat (seed / 2 ^ 16) :: noise ((seed * 1103515245 + 12345) % 2 ^ 31) n

@[simp] theorem noise_length (seed n : Nat) : (noise seed n).length = n := by
  induction n generalizing seed with
  | zero => rfl
  | succ n ih => rw [noise, List.length_cons, ih]

/-- The writer takes a payload as long as a frame may be, and the reader refuses its frame. -/
theorem noise_refused :
    ∃ frame, encodeFrame storing (noise 1 kMaxFrameBytes) true = .ok frame ∧
      ∃ e, takeFrames storing frame = .error e := by
  have hlength := noise_length 1 kMaxFrameBytes
  generalize noise 1 kMaxFrameBytes = payload at hlength
  have hlong : payload.length ≥ kCompressMinBytes := by
    rw [hlength]
    decide
  have hencodes : Encodes storing payload true kFrameFlagZstd (magicNumber ++ payload) :=
    .compressed rfl hlong rfl
  have hbody : kMaxFrameBytes < (magicNumber ++ payload).length := by
    rw [List.length_append, hlength]
    simp only [magicNumber, List.length_cons, List.length_nil]
    omega
  refine ⟨header (magicNumber ++ payload).length kFrameFlagZstd ++ (magicNumber ++ payload), ?_,
    takeFrames_refuses .done
      (hencodes.front_bad storing_lawful (Nat.le_of_eq hlength) hbody)⟩
  unfold encodeFrame compressIfWorthIt
  rw [if_neg (by rw [hlength]; exact Nat.lt_irrefl _), if_pos ⟨rfl, hlong⟩]
  rfl

end Ned.Editor.Protocol
