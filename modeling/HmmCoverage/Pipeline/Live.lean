import HmmCoverage.Coverage.Accumulate
import HmmCoverage.Pipeline.LoadData

/-!
# The live coverage hook

`scripts/hmm_coverage.py` is what the fuzzer calls on every test case.  After `init` has
loaded a preprocessor and a model from a configuration, `calculate_coverage` splits the
captured packets into connections.  It turns every packet into a fixed-size vector in
`[0, 1]` (`scale_packet_length`, then `scale_packet_values`), encodes each connection with
the preprocessor (`preprocess`), and returns the coverage map of the single connection.

The script keeps its state in module globals.  They are modelled as an explicit state whose
loaded objects are absent before the first successful `init`.  The preprocessor, the HMM and
the packet capture are external: a preprocessor is given by the one method the code calls on
it, `transform` of a PCA or `predict` of a Keras encoder, and the HMM by its decoder, as in
`calculate_coverage`.  The captured connections are what `load_and_split_data_syn` returns,
taken as a parameter `split`; the last section puts in the model of `load_data.py`.

`init` accepts the preprocessor types `pca`, `ae` and `ae_chiu`, while `preprocess` accepts
`pca`, `ae` and `chiu`.  `init` also stores the configured type before checking it.
-/

namespace HmmCoverage

/-! ## The packet front end -/

/-- `scale_packet_length(input_bytes, length)`: `input_bytes.ljust(length, b'\0')` when
the packet is not longer than `length`, and `input_bytes[0:length]` otherwise. -/
def scalePacketLength (inputBytes : List UInt8) (length : ℕ := 1500) : List UInt8 :=
  if inputBytes.length ≤ length then
    inputBytes ++ List.replicate (length - inputBytes.length) 0
  else inputBytes.take length

/-- `scale_packet_values(input_bytes)`: `[byte / 255 for byte in input_bytes]`. -/
def scalePacketValues (inputBytes : List UInt8) : List ℚ :=
  inputBytes.map fun byte => (byte.toNat : ℚ) / 255

/-- One packet as every preprocessor receives it:
`scale_packet_values(scale_packet_length(pkt, sample_size))`. -/
def packetVector (sampleSize : ℕ) (pkt : List UInt8) : List ℚ :=
  scalePacketValues (scalePacketLength pkt sampleSize)

/-- Both branches of `scale_packet_length` pad with zeros and cut to `length`. -/
theorem scalePacketLength_eq (bs : List UInt8) (n : ℕ) :
    scalePacketLength bs n = (bs ++ List.replicate (n - bs.length) 0).take n := by
  unfold scalePacketLength
  split
  · rw [List.take_of_length_le (by simp only [List.length_append, List.length_replicate]; omega)]
  · rw [Nat.sub_eq_zero_of_le (by omega), List.replicate_zero, List.append_nil]

theorem length_scalePacketLength (bs : List UInt8) (n : ℕ) :
    (scalePacketLength bs n).length = n := by
  rw [scalePacketLength_eq, List.length_take, List.length_append, List.length_replicate]
  omega

theorem getElem?_scalePacketLength (bs : List UInt8) {n i : ℕ} (hi : i < n) :
    (scalePacketLength bs n)[i]? = some (bs.getD i 0) := by
  rw [scalePacketLength_eq, List.getElem?_take_of_lt hi, List.getD_eq_getElem?_getD]
  by_cases hb : i < bs.length
  · rw [List.getElem?_append_left hb, List.getElem?_eq_getElem hb, Option.getD_some]
  · rw [List.getElem?_append_right (by omega), List.getElem?_replicate_of_lt (by omega),
      List.getElem?_eq_none (by omega), Option.getD_none]

/-- Every packet reaches the preprocessor as exactly `sample_size` values in `[0, 1]`: its
bytes divided by `255`, cut to `sample_size` or padded with zeros. -/
theorem packetVector_spec (sampleSize : ℕ) (pkt : List UInt8) :
    (packetVector sampleSize pkt).length = sampleSize ∧
      (∀ i < sampleSize,
        (packetVector sampleSize pkt).getD i 0 = ((pkt.getD i 0).toNat : ℚ) / 255) ∧
      ∀ x ∈ packetVector sampleSize pkt, 0 ≤ x ∧ x ≤ 1 := by
  refine ⟨by simp [packetVector, scalePacketValues, length_scalePacketLength], fun i hi => ?_, ?_⟩
  · simp [packetVector, scalePacketValues, List.getD_eq_getElem?_getD, List.getElem?_map,
      getElem?_scalePacketLength pkt hi]
  · simp only [packetVector, scalePacketValues, List.mem_map]
    rintro _ ⟨byte, -, rfl⟩
    have hbyte : (byte.toNat : ℚ) ≤ 255 := by
      exact_mod_cast Nat.le_of_lt_succ (UInt8.toNat_lt_size byte)
    constructor
    · positivity
    · rw [div_le_one (by norm_num)]
      exact hbyte

/-! ## Bytes as bits

`bytes_as_bits_list` is a second front end of `util.py`: each byte becomes eight floats,
`0.0` or `1.0`, its binary digits most significant first.  The hook imports it but does not
call it.  Python's `float` of one character is the character's digit value, and raises
`ValueError` on any other ASCII character; only `0` and `1` ever reach it. -/

/-- `format(byte, '08b')`: the binary digits of the byte, padded with zeros to eight. -/
def format08b (byte : UInt8) : List Char :=
  (Nat.toDigits 2 byte.toNat).leftpad 8 '0'

/-- `float(int(float(a)))` for one character `a` of the joined string. -/
def floatOfChar (a : Char) : Except PyError ℚ :=
  if a.isDigit then .ok (a.toNat - '0'.toNat : ℕ) else .error .valueError

/-- `bytes_as_bits_list(input_bytes)`: every character of
`''.join(format(byte, '08b') for byte in input_bytes)` read back as a float. -/
def bytesAsBitsList (inputBytes : List UInt8) : Except PyError (List ℚ) :=
  (inputBytes.flatMap format08b).mapM floatOfChar

/-- A list of bits read as a binary number, most significant bit first. -/
def bitsValue (bits : List ℚ) : ℚ :=
  bits.foldl (fun acc bit => 2 * acc + bit) 0

/-- The binary digits of `n`, most significant first, padded with zeros to eight. -/
def byteDigits (n : ℕ) : List ℕ :=
  List.replicate (8 - (Nat.digits 2 n).length) 0 ++ (Nat.digits 2 n).reverse

/-- The eight bits of a byte as `bytes_as_bits_list` writes them. -/
def byteBits (byte : UInt8) : List ℚ :=
  (byteDigits byte.toNat).map fun d : ℕ => (d : ℚ)

theorem length_digits_two_le {n : ℕ} (hn : n < 256) : (Nat.digits 2 n).length ≤ 8 := by
  rcases Nat.eq_zero_or_pos n with rfl | hpos
  · simp
  · by_contra hlen
    have h9 : 2 ^ 9 ≤ 2 ^ (Nat.digits 2 n).length := Nat.pow_le_pow_right (by norm_num) (by omega)
    have := Nat.base_pow_length_digits_le 2 n (by norm_num) hpos.ne'
    omega

theorem lt_two_of_mem_byteDigits {n d : ℕ} (hd : d ∈ byteDigits n) : d < 2 := by
  rcases List.mem_append.mp hd with h | h
  · rw [List.eq_of_mem_replicate h]
    norm_num
  · exact Nat.digits_lt_base (by norm_num) (List.mem_reverse.mp h)

/-- `format(byte, '08b')` writes the digits of `byteDigits`. -/
theorem format08b_eq (byte : UInt8) :
    format08b byte = (byteDigits byte.toNat).map Nat.digitChar := by
  rcases Nat.eq_zero_or_pos byte.toNat with h0 | hpos
  · rw [format08b, byteDigits, h0, Nat.digits_zero]
    rfl
  · rw [format08b, Nat.toDigits, toDigitsCore_eq (by norm_num) _ hpos (by omega), List.append_nil,
      List.leftpad, byteDigits, List.map_append, List.map_replicate, List.map_reverse,
      List.length_reverse, List.length_map]
    rfl

/-- `float` reads each digit character back as its value. -/
theorem mapM_floatOfChar_digitChar {ds : List ℕ} (hds : ∀ d ∈ ds, d < 10) :
    (ds.map Nat.digitChar).mapM floatOfChar = .ok (ds.map fun d : ℕ => (d : ℚ)) := by
  have hdigit : ∀ d < 10,
      (Nat.digitChar d).isDigit = true ∧ (Nat.digitChar d).toNat - '0'.toNat = d := by decide
  induction ds with
  | nil => rfl
  | cons d ds ih =>
    obtain ⟨hd, hval⟩ := hdigit d (hds d (List.mem_cons_self d ds))
    rw [List.map_cons, List.mapM_cons, floatOfChar, if_pos hd, hval,
      ih fun d' h => hds d' (List.mem_cons_of_mem d h)]
    rfl

/-- `bytes_as_bits_list` never raises: it returns the bits of each byte in turn. -/
theorem bytesAsBitsList_eq (inputBytes : List UInt8) :
    bytesAsBitsList inputBytes = .ok (inputBytes.flatMap byteBits) := by
  induction inputBytes with
  | nil => rfl
  | cons byte bytes ih =>
    rw [bytesAsBitsList] at ih
    rw [bytesAsBitsList, List.flatMap_cons, List.mapM_append, format08b_eq,
      mapM_floatOfChar_digitChar fun d hd => by have := lt_two_of_mem_byteDigits hd; omega, ih]
    rfl

theorem length_byteBits (byte : UInt8) : (byteBits byte).length = 8 := by
  have := length_digits_two_le (UInt8.toNat_lt_size byte)
  simp only [byteBits, byteDigits, List.length_map, List.length_append, List.length_replicate,
    List.length_reverse]
  omega

theorem mem_byteBits {byte : UInt8} {bit : ℚ} (h : bit ∈ byteBits byte) : bit = 0 ∨ bit = 1 := by
  obtain ⟨d, hd, rfl⟩ := List.mem_map.mp h
  have := lt_two_of_mem_byteDigits hd
  rcases (by omega : d = 0 ∨ d = 1) with rfl | rfl <;> simp

/-- The eight bits of a byte read back give the byte. -/
theorem bitsValue_byteBits (byte : UInt8) : bitsValue (byteBits byte) = byte.toNat := by
  have hzeros : ∀ k, (List.replicate k (0 : ℚ)).foldl (fun acc bit => 2 * acc + bit) 0 = 0 := by
    intro k
    induction k with
    | zero => rfl
    | succ k ih => rw [List.replicate_succ, List.foldl_cons, mul_zero, add_zero, ih]
  rw [bitsValue, byteBits, byteDigits, List.map_append, List.foldl_append, List.map_replicate,
    Nat.cast_zero, hzeros, List.map_reverse, List.foldl_reverse, List.foldr_map]
  conv_rhs => rw [← Nat.ofDigits_digits 2 byte.toNat, Nat.coe_ofDigits, Nat.ofDigits_eq_foldr]
  congr 1
  funext x y
  push_cast
  ring

theorem length_flatMap_byteBits (bytes : List UInt8) :
    (bytes.flatMap byteBits).length = 8 * bytes.length := by
  induction bytes with
  | nil => rfl
  | cons byte bytes ih =>
    rw [List.flatMap_cons, List.length_append, length_byteBits, ih, List.length_cons]
    omega

/-- The block of byte `i` is the eight entries from `8 * i` on. -/
theorem take_drop_flatMap_byteBits (bytes : List UInt8) {i : ℕ} (hi : i < bytes.length) :
    ((bytes.flatMap byteBits).drop (8 * i)).take 8 = byteBits bytes[i] := by
  induction bytes generalizing i with
  | nil => simp at hi
  | cons byte bytes ih =>
    rw [List.flatMap_cons]
    cases i with
    | zero => rw [Nat.mul_zero, List.drop_zero, List.take_left' (length_byteBits byte)]; rfl
    | succ i =>
      rw [show 8 * (i + 1) = 8 + 8 * i by omega, ← List.drop_drop,
        List.drop_left' (length_byteBits byte), ih (by simpa using hi)]
      rfl

/-- For every byte string, `bytes_as_bits_list` returns eight floats per byte, each `0.0` or
`1.0`, and the eight floats of byte `i`, read most significant first, give back byte `i`. -/
theorem bytesAsBitsList_spec (inputBytes : List UInt8) :
    ∃ bits, bytesAsBitsList inputBytes = .ok bits ∧ bits.length = 8 * inputBytes.length ∧
      (∀ bit ∈ bits, bit = 0 ∨ bit = 1) ∧
      ∀ i (hi : i < inputBytes.length),
        bitsValue ((bits.drop (8 * i)).take 8) = inputBytes[i].toNat := by
  refine ⟨_, bytesAsBitsList_eq inputBytes, length_flatMap_byteBits inputBytes, fun bit h => ?_,
    fun i hi => by rw [take_drop_flatMap_byteBits inputBytes hi, bitsValue_byteBits]⟩
  obtain ⟨byte, -, hbit⟩ := List.mem_flatMap.mp h
  exact mem_byteBits hbit

/-! ## Preprocessing -/

/-- A loaded preprocessor: a fitted PCA, of which the code calls `transform`, or a Keras
encoder, of which it calls `predict`. -/
inductive Preprocessor where
  | pca (transform : List ℚ → List ℚ)
  | keras (predict : List (List ℚ) → List (List ℚ))

/-- `model.transform(...)`, which a Keras model does not have. -/
def Preprocessor.transform : Preprocessor → List ℚ → Except PyError (List ℚ)
  | .pca transform, v => .ok (transform v)
  | .keras _, _ => .error .attributeError

/-- `encoder.predict(...)`, which a PCA does not have. -/
def Preprocessor.predict : Preprocessor → List (List ℚ) → Except PyError (List (List ℚ))
  | .keras predict, vs => .ok (predict vs)
  | .pca _, _ => .error .attributeError

/-- `preprocess_autoencoder(data, encoder, sample_size)`: per connection, the encoder's
output on the batch of its packet vectors.  `data` is the dictionary of connections, as the
list of its values in key order. -/
def preprocessAutoencoder (data : List (List (List UInt8))) (encoder : Preprocessor)
    (sampleSize : ℕ) : Except PyError (List (List (List ℚ))) :=
  data.mapM fun pkts => encoder.predict (pkts.map (packetVector sampleSize))

/-- `preprocess_chiu(data, encoder, sample_size)`: the loop of `preprocess_autoencoder`,
with a `K.clear_session()` after each connection that only frees Keras state. -/
def preprocessChiu (data : List (List (List UInt8))) (encoder : Preprocessor)
    (sampleSize : ℕ) : Except PyError (List (List (List ℚ))) :=
  preprocessAutoencoder data encoder sampleSize

/-- `preprocess_pca(data, model, sample_size)`: per connection, the row `model.transform`
gives for each packet vector. -/
def preprocessPca (data : List (List (List UInt8))) (model : Preprocessor) (sampleSize : ℕ) :
    Except PyError (List (List (List ℚ))) :=
  data.mapM fun pkts => pkts.mapM fun pkt => model.transform (packetVector sampleSize pkt)

/-- `preprocess(data, model, model_type, sample_size)`. -/
def preprocess (data : List (List (List UInt8))) (model : Preprocessor) (modelType : String)
    (sampleSize : ℕ) : Except PyError (List (List (List ℚ))) :=
  if modelType = "pca" then preprocessPca data model sampleSize
  else if modelType = "ae" then preprocessAutoencoder data model sampleSize
  else if modelType = "chiu" then preprocessChiu data model sampleSize
  else .error .valueError

/-- How a preprocessor encodes one connection when the configured type names its kind: the
rows `transform` gives for the packet vectors of a PCA, the output of `predict` on their
batch for a Keras encoder. -/
def Preprocessor.encode : Preprocessor → ℕ → List (List UInt8) → List (List ℚ)
  | .pca transform, sampleSize, pkts => pkts.map fun pkt => transform (packetVector sampleSize pkt)
  | .keras predict, sampleSize, pkts => predict (pkts.map (packetVector sampleSize))

theorem preprocess_pca (data : List (List (List UInt8))) (transform : List ℚ → List ℚ)
    (sampleSize : ℕ) :
    preprocess data (.pca transform) "pca" sampleSize =
      .ok (data.map ((Preprocessor.pca transform).encode sampleSize)) := by
  simp only [preprocess, if_true, preprocessPca]
  exact mapM_ok _ _ (fun pkts => mapM_ok _ _ (fun _ => rfl) pkts) data

/-- Under `ae` and `chiu` a Keras encoder encodes every connection. -/
theorem preprocess_keras {modelType : String} (ht : modelType = "ae" ∨ modelType = "chiu")
    (data : List (List (List UInt8))) (predict : List (List ℚ) → List (List ℚ))
    (sampleSize : ℕ) :
    preprocess data (.keras predict) modelType sampleSize =
      .ok (data.map ((Preprocessor.keras predict).encode sampleSize)) := by
  rcases ht with rfl | rfl <;> simp only [preprocess, preprocessChiu, preprocessAutoencoder] <;>
    exact mapM_ok _ _ (fun _ => rfl) data

/-- The objects a successful `init` keeps in the globals `preprocessor`, `model` and
`number_of_nodes`; `model` is given by its decoder. -/
structure Loaded where
  preprocessor : Preprocessor
  model : List (List ℚ) → List ℕ
  numberOfNodes : ℕ

/-- The module globals: `preprocessor_type`, and the loaded objects, present exactly when
`initialized` is set. -/
structure LiveState where
  preprocessorType : String
  loaded : Option Loaded

/-- The globals at import time. -/
def LiveState.initial : LiveState := ⟨"", none⟩

/-- What `init` reads through its configuration file: `preprocessor_type`, `model_nodes`,
and what the configured paths load to: `joblib.load(preprocessor_path)` for `pca`,
`tf.keras.models.load_model(preprocessor_path)` otherwise, and the HMM of `model_path`. -/
structure Config where
  preprocessorType : String
  loadedPca : List ℚ → List ℚ
  loadedKeras : List (List ℚ) → List (List ℚ)
  model : List (List ℚ) → List ℕ
  modelNodes : ℕ

/-- The preprocessor `init` loads for the configured type. -/
def Config.preprocessor (config : Config) : Preprocessor :=
  if config.preprocessorType = "pca" then .pca config.loadedPca else .keras config.loadedKeras

/-- `SAMPLE_SIZE`. -/
def sampleSize : ℕ := 1504

/-- `init(config_path)`: store `preprocessor_type`, assert it is `pca`, `ae` or `ae_chiu`,
then load the preprocessor and the model and set `initialized`. -/
def init (state : LiveState) (config : Config) : LiveState × Except PyError Unit :=
  let state := { state with preprocessorType := config.preprocessorType }
  if config.preprocessorType = "pca" ∨ config.preprocessorType = "ae" ∨
      config.preprocessorType = "ae_chiu" then
    ({ state with loaded := some ⟨config.preprocessor, config.model, config.modelNodes⟩ }, .ok ())
  else (state, .error .assertionError)

variable {Capture : Type}

/-- `calculate_coverage(pcap_path)` of the script, where `split pcap` is what
`load_and_split_data_syn(pcap_path)` returns. -/
def liveCoverage (split : Capture → List (List (List UInt8))) (state : LiveState)
    (pcap : Capture) : Except PyError (List ℕ) :=
  match state.loaded with
  | none => .error .assertionError
  | some loaded => do
    let preprocessedData ←
      preprocess (split pcap) loaded.preprocessor state.preprocessorType sampleSize
    if preprocessedData.length = 1 then
      calculateCoverageSingle loaded.model loaded.numberOfNodes preprocessedData
    else .error .assertionError

theorem init_of_accepted (state : LiveState) {config : Config}
    (hc : config.preprocessorType = "pca" ∨ config.preprocessorType = "ae" ∨
      config.preprocessorType = "ae_chiu") :
    init state config = (⟨config.preprocessorType,
      some ⟨config.preprocessor, config.model, config.modelNodes⟩⟩, .ok ()) := by
  simp only [init, if_pos hc]

theorem init_of_rejected (state : LiveState) {config : Config}
    (hc : ¬ (config.preprocessorType = "pca" ∨ config.preprocessorType = "ae" ∨
      config.preprocessorType = "ae_chiu")) :
    init state config = (⟨config.preprocessorType, state.loaded⟩, .error .assertionError) := by
  simp only [init, if_neg hc]

/-! ## Runs of `init` -/

/-- Whether the `assert` of `init` accepts the configured type. -/
def Config.accepted (config : Config) : Bool :=
  decide (config.preprocessorType = "pca" ∨ config.preprocessorType = "ae" ∨
    config.preprocessorType = "ae_chiu")

/-- The objects an accepted configuration loads. -/
def Config.loaded (config : Config) : Loaded :=
  ⟨config.preprocessor, config.model, config.modelNodes⟩

/-- The state after `init` has been called with each configuration in turn, whatever each
call raised. -/
def initAll (state : LiveState) (configs : List Config) : LiveState :=
  configs.foldl (fun s config => (init s config).1) state

theorem init_fst (state : LiveState) (config : Config) :
    (init state config).1 =
      ⟨config.preprocessorType, if config.accepted then some config.loaded else state.loaded⟩ := by
  by_cases hc : config.preprocessorType = "pca" ∨ config.preprocessorType = "ae" ∨
      config.preprocessorType = "ae_chiu"
  · simp only [init_of_accepted state hc, Config.accepted, hc, decide_True, if_true]
    rfl
  · simp only [init_of_rejected state hc, Config.accepted, hc, decide_False, Bool.false_eq_true,
      if_false]

/-- After any run of `init`, the hook holds the last configured type and the objects of the
last configuration whose type was accepted. -/
theorem initAll_eq (state : LiveState) (configs : List Config) :
    initAll state configs =
      ⟨(configs.getLast?.map Config.preprocessorType).getD state.preprocessorType,
        ((configs.filter Config.accepted).getLast?.map Config.loaded).or state.loaded⟩ := by
  induction configs using List.reverseRecOn with
  | nil => rfl
  | append_singleton cs c ih =>
    have hstep : initAll state (cs ++ [c]) = (init (initAll state cs) c).1 := by
      simp only [initAll, List.foldl_append, List.foldl_cons, List.foldl_nil]
    rw [hstep, init_fst, ih]
    by_cases hc : c.accepted <;> simp [List.filter_append, hc, List.getLast?_concat]

/-! ## What the hook computes -/

/-- After `init` with `pca` or `ae`, the hook encodes every connection with the loaded
preprocessor and, when there is exactly one, decodes it. -/
theorem liveCoverage_init_eq (state : LiveState) {config : Config}
    (hc : config.preprocessorType = "pca" ∨ config.preprocessorType = "ae")
    (split : Capture → List (List (List UInt8))) (pcap : Capture) :
    liveCoverage split (init state config).1 pcap =
      if (split pcap).length = 1 then
        calculateCoverageSingle config.model config.modelNodes
          ((split pcap).map (config.preprocessor.encode sampleSize))
      else .error .assertionError := by
  have hpre : preprocess (split pcap) config.preprocessor config.preprocessorType sampleSize =
      .ok ((split pcap).map (config.preprocessor.encode sampleSize)) := by
    rcases hc with h | h
    · simp only [Config.preprocessor, h, if_true]
      exact preprocess_pca _ _ _
    · simp only [Config.preprocessor, h]
      exact preprocess_keras (.inl rfl) _ _ _
  rw [init_of_accepted state (hc.elim .inl fun h => .inr (.inl h))]
  simp [liveCoverage, hpre]

/-- Before the first `init` whose `assert` passes, the hook raises `AssertionError` on every
capture, however many rejected `init` calls were made. -/
theorem liveCoverage_before_accepted_init (configs : List Config)
    (hrej : ∀ c ∈ configs, c.accepted = false) (split : Capture → List (List (List UInt8)))
    (pcap : Capture) :
    liveCoverage split (initAll LiveState.initial configs) pcap = .error .assertionError := by
  have hnone : configs.filter Config.accepted = [] :=
    List.filter_eq_nil_iff.mpr fun c hc => by simp [hrej c hc]
  rw [initAll_eq, hnone]
  rfl

theorem liveCoverage_before_accepted_init_of_chiu :
    (∀ c ∈ [(⟨"chiu", id, id, fun _ => [], 2⟩ : Config)], c.accepted = false) ∧
      liveCoverage (fun _ : Unit => [[[0]]])
        (initAll LiveState.initial [⟨"chiu", id, id, fun _ => [], 2⟩]) () =
        .error .assertionError := by
  have hrej : ∀ c ∈ [(⟨"chiu", id, id, fun _ => [], 2⟩ : Config)], c.accepted = false := by
    simp [Config.accepted]
  exact ⟨hrej, liveCoverage_before_accepted_init _ hrej _ ()⟩

/-- With `pca` or `ae` configured, `init` succeeds from any state.  After it, a capture of
one connection yields the coverage map of that connection's decoded path, as long as the
path's states are below `model_nodes`, and a capture of any other number of connections
fails the hook's `assert`. -/
theorem liveCoverage_after_init (state : LiveState) {config : Config}
    (hc : config.preprocessorType = "pca" ∨ config.preprocessorType = "ae")
    (split : Capture → List (List (List UInt8))) :
    (init state config).2 = .ok () ∧
      (∀ pcap pkts, split pcap = [pkts] →
        (∀ s ∈ config.model (config.preprocessor.encode sampleSize pkts), s < config.modelNodes) →
        liveCoverage split (init state config).1 pcap =
          .ok (bitmapOf (config.modelNodes * config.modelNodes)
            ((pathEdges (config.model (config.preprocessor.encode sampleSize pkts))).toFinset.image
              (edgeIndex config.modelNodes)))) ∧
      ∀ pcap, (split pcap).length ≠ 1 →
        liveCoverage split (init state config).1 pcap = .error .assertionError := by
  refine ⟨by rw [init_of_accepted state (hc.elim .inl fun h => .inr (.inl h))],
    fun pcap pkts hsplit hpath => ?_, fun pcap hlen => ?_⟩
  · rw [liveCoverage_init_eq state hc, hsplit]
    simp [calculateCoverageSingle, generateCoverageMap_spec hpath]
  · rw [liveCoverage_init_eq state hc, if_neg hlen]

theorem liveCoverage_after_init_of_ae :
    ((⟨"ae", id, id, fun _ => [0, 1], 2⟩ : Config).preprocessorType = "pca" ∨
      (⟨"ae", id, id, fun _ => [0, 1], 2⟩ : Config).preprocessorType = "ae") ∧
      liveCoverage (fun _ : Unit => [[[0]]])
        (init LiveState.initial ⟨"ae", id, id, fun _ => [0, 1], 2⟩).1 () = .ok [0, 1, 0, 0] ∧
      liveCoverage (fun _ : Unit => [[[0]], [[1]]])
        (init LiveState.initial ⟨"ae", id, id, fun _ => [0, 1], 2⟩).1 () = .error .assertionError := by
  refine ⟨.inr rfl, ?_, (liveCoverage_after_init LiveState.initial (.inr rfl)
    (fun _ : Unit => [[[0]], [[1]]])).2.2 () (by decide)⟩
  rw [(liveCoverage_after_init LiveState.initial (.inr rfl) (fun _ : Unit => [[[0]]])).2.1 () [[0]]
    rfl (by decide)]
  rfl

/-- The hook on a capture `P` split by `load_and_split_data_syn`, after `init` with `pca` or
`ae`: a SYN packet after the first packet starts a second sequence and the `assert` fails;
without one the capture is a single sequence, and the result is the coverage map of its
decoded path, as long as the path's states are below `model_nodes`. -/
theorem liveCoverage_loadAndSplitDataSyn (state : LiveState) {config : Config}
    (hc : config.preprocessorType = "pca" ∨ config.preprocessorType = "ae") (P : List Packet) :
    ((∃ pkt ∈ P.drop 1, pkt.isSyn) →
      liveCoverage (fun P => (loadAndSplitDataSyn P).map Prod.snd) (init state config).1 P =
        .error .assertionError) ∧
    ((∀ pkt ∈ P.drop 1, pkt.isSyn = false) →
      (∀ s ∈ config.model (config.preprocessor.encode sampleSize (P.map Packet.raw)),
        s < config.modelNodes) →
      liveCoverage (fun P => (loadAndSplitDataSyn P).map Prod.snd) (init state config).1 P =
        .ok (bitmapOf (config.modelNodes * config.modelNodes)
          ((pathEdges (config.model (config.preprocessor.encode sampleSize
            (P.map Packet.raw)))).toFinset.image (edgeIndex config.modelNodes)))) := by
  rw [liveCoverage_init_eq state hc]
  refine ⟨fun hsyn => if_neg ?_, fun hsyn hpath => ?_⟩
  · have hpos := List.countP_pos_iff.2 hsyn
    rw [List.length_map, length_loadAndSplitDataSyn]
    omega
  · rw [loadAndSplitDataSyn_of_countP_eq_zero (List.countP_eq_zero.2 (by simpa using hsyn))]
    simp [calculateCoverageSingle, generateCoverageMap_spec hpath]

theorem liveCoverage_loadAndSplitDataSyn_of_two_connections :
    ((⟨"pca", id, id, fun _ => [], 2⟩ : Config).preprocessorType = "pca" ∨
      (⟨"pca", id, id, fun _ => [], 2⟩ : Config).preprocessorType = "ae") ∧
      liveCoverage (fun P => (loadAndSplitDataSyn P).map Prod.snd)
          (init LiveState.initial ⟨"pca", id, id, fun _ => [], 2⟩).1
          [⟨true, true, "S", "10.0.0.1", 40000, 21, [1]⟩,
            ⟨true, true, "S", "10.0.0.1", 40001, 21, [2]⟩] =
        .error .assertionError :=
  ⟨.inl rfl, (liveCoverage_loadAndSplitDataSyn LiveState.initial (.inl rfl) _).1 (by decide)⟩

end HmmCoverage
