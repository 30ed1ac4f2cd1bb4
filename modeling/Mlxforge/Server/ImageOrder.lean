import Mlxforge.Server.RequestMessages
import Mlxforge.Server.VisionTurns
import Mlxforge.Vision.ImageTokens
import Mlxforge.Vision.VisionStages

/-!
Images from a request to the model: the engine gets them in the order of the vision blocks in the prompt, each block has
the placeholder tokens of its image, and its features go there.
-/

namespace Mlxforge

variable {K : Type} [Field K] {R : Type}

/-- What `parse_chat_request` and `parse_messages_request` return; `settings` has what they read besides the messages. -/
def ApiRequest.withTurns (settings : ApiRequest) (turns : List Turn) : ApiRequest :=
  { settings with messages := turns.map (·.1), messageImages := turns.map (·.2) }

/-- The placeholders of an image, from its header. -/
noncomputable def imageProbe (lib : ImageLib) (cfg : PreprocessConfig K) (bytes : Bytes) : Except Exn Int := do
  let (height, width) ← lib.imageInfo bytes
  return cfg.imageTokenCount height width

/-- The merged patches of the decoded image. -/
noncomputable def mergedPatches (lib : ImageLib) (cfg : PreprocessConfig K) (bytes : Bytes) : Except Exn Nat := do
  let image ← lib.decodeImage bytes
  let pre ← (preprocessImage lib image cfg).mapError .runtime
  return pre.gridThw.t * pre.gridThw.h * pre.gridThw.w / (cfg.mergeSize * cfg.mergeSize)

/-- The image decodes to the size in its header. -/
def Decodable (lib : ImageLib) (bytes : Bytes) : Prop :=
  ∃ image, lib.decodeImage bytes = .ok image ∧ lib.imageInfo bytes = .ok (image.height, image.width)

/-- A server of a vision model: the vision markers are added tokens, and turns are rendered in ChatML. -/
structure VisionServer (K : Type) [Field K] where
  fe : FrontEnds
  lib : ImageLib
  cfg : PreprocessConfig K
  id : Marker → Int
  vision : fe.hasVisionTower = true
  probe : fe.imageTokenCount = imageProbe lib cfg
  chatMl : fe.tok.chatFormat ≠ .llama3
  distinct : Function.Injective id
  no_bos : ∀ k, fe.tok.bosId ≠ id k
  marks : fe.tok.impl.literalTable.Marks (fe.tok.impl.encodePlain fe.tables) visionText id

namespace VisionServer

/-- The merged patches of an image, 0 where it does not decode. -/
noncomputable def patches (s : VisionServer K) (bytes : Bytes) : Nat :=
  ((mergedPatches s.lib s.cfg bytes).toOption).getD 0

end VisionServer

/-- The turn with the images that are rendered in it. -/
def shownTurn (turn : Turn) : Turn := (turn.1, if FrontEnds.rendersImages turn.1 then turn.2 else [])

/-- A leading system turn is rendered apart from the others, without images. -/
def shownTurns : List Turn → List Turn
  | [] => []
  | turn :: rest => (if turn.1.role = ascii "system" then (turn.1, []) else shownTurn turn) :: rest.map shownTurn

/-! ### The request -/

/-- The header tells the merged patches. -/
theorem mergedPatches_ok (lib : ImageLib) (cfg : PreprocessConfig K) {bytes : Bytes} (decodable : Decodable lib bytes) :
    ∃ n, mergedPatches lib cfg bytes = .ok n ∧ imageProbe lib cfg bytes = .ok (n : Int) := by
  obtain ⟨image, decoded, header⟩ := decodable
  obtain ⟨pre, made, grid⟩ := preprocessImage_ok lib image cfg
  refine ⟨cfg.mergedPatches image.height image.width, ?_, ?_⟩
  · rw [mergedPatches, decoded, ok_bind, made, PreprocessConfig.mergedPatches_eq]
    simp only [Except.mapError, ok_bind, grid]
    rfl
  · rw [imageProbe, header, ok_bind]
    exact congrArg Except.ok (cfg.imageTokenCount_eq image.height image.width)

namespace VisionServer

variable (s : VisionServer K)

/-- The message with its placeholder counts. -/
noncomputable def sized (turn : Turn) : Message := { turn.1 with imageTokenCounts := turn.2.map fun bytes => (s.patches bytes : Int) }

variable {s} {turns : List Turn}

theorem probe_eq {bytes : Bytes} (decodable : Decodable s.lib bytes) : s.fe.imageTokenCount bytes = .ok (s.patches bytes : Int) := by
  obtain ⟨n, merged, probed⟩ := mergedPatches_ok s.lib s.cfg decodable
  have count : s.patches bytes = n := by
    rw [patches, merged]
    rfl
  rw [s.probe, probed, count]

theorem withImages_eq (fresh : ∀ turn ∈ turns, turn.1.imageTokenCounts = [])
    (decodable : ∀ turn ∈ turns, ∀ bytes ∈ turn.2, Decodable s.lib bytes) :
    s.fe.withImages turns = .ok ((turns.map shownTurn).map s.sized, (turns.map shownTurn).flatMap (·.2)) := by
  induction turns with
  | nil => rfl
  | cons turn rest ih =>
    obtain ⟨m, images⟩ := turn
    have later := ih (fun turn member => fresh turn (.tail _ member)) (fun turn member => decodable turn (.tail _ member))
    have probed : images.mapM s.fe.imageTokenCount = .ok (images.map fun bytes => (s.patches bytes : Int)) :=
      mapM_ok fun bytes member => probe_eq (decodable (m, images) (by simp) bytes member)
    have none_yet : m.imageTokenCounts = [] := fresh (m, images) (by simp)
    rw [FrontEnds.withImages, later]
    by_cases renders : FrontEnds.rendersImages m = true
    · simp only [renders, if_true, probed, ok_bind, none_yet, List.nil_append, List.map_cons, List.flatMap_cons, shownTurn, sized]
      rfl
    · simp only [renders, none_yet, List.map_cons, List.flatMap_cons, shownTurn, sized]
      rfl

theorem sized_imageless {m : Message} (fresh : m.imageTokenCounts = []) : s.sized (m, []) = m := by
  rw [sized, List.map_nil, ← fresh]

theorem messagesWithImages_eq (s : VisionServer K) (cr : ApiRequest) (messages : cr.messages = turns.map (·.1))
    (images : cr.messageImages = turns.map (·.2)) (fresh : ∀ turn ∈ turns, turn.1.imageTokenCounts = [])
    (decodable : ∀ turn ∈ turns, ∀ bytes ∈ turn.2, Decodable s.lib bytes) :
    s.fe.messagesWithImages cr = .ok ((shownTurns turns).map s.sized, (shownTurns turns).flatMap (·.2)) := by
  have zipped (turns : List Turn) : (turns.map (·.1)).zip (turns.map (·.2)) = turns := by
    rw [List.zip_map', List.map_id'']
    exact fun _ => rfl
  unfold FrontEnds.messagesWithImages
  rw [messages, images]
  cases turns with
  | nil => rfl
  | cons turn rest =>
    rw [List.map_cons, List.map_cons, shownTurns]
    dsimp only
    split_ifs with system
    · rw [zipped, withImages_eq (fun turn member => fresh turn (.tail _ member))
        (fun turn member => decodable turn (.tail _ member)), ok_bind, List.map_cons, List.flatMap_cons,
        sized_imageless (fresh turn (by simp))]
      rfl
    · rw [← List.map_cons, ← List.map_cons, zipped, withImages_eq fresh decodable]
      rfl

/-- What is rendered of a turn. -/
theorem shownTurns_spec {turn : Turn} (member : turn ∈ shownTurns turns) :
    ∃ given ∈ turns, turn.1 = given.1 ∧ (turn.2 = [] ∨ turn.2 = given.2 ∧ FrontEnds.rendersImages turn.1 = true) := by
  have shown {given : Turn} : (shownTurn given).2 = [] ∨
      (shownTurn given).2 = given.2 ∧ FrontEnds.rendersImages (shownTurn given).1 = true := by
    unfold shownTurn
    by_cases renders : FrontEnds.rendersImages given.1 = true
    · exact .inr ⟨if_pos renders, renders⟩
    · exact .inl (if_neg renders)
  cases turns with
  | nil => cases member
  | cons given rest =>
    rcases List.mem_cons.mp member with rfl | later
    · refine ⟨given, by simp, ?_⟩
      split_ifs
      · exact ⟨rfl, .inl rfl⟩
      · exact ⟨rfl, shown⟩
    · obtain ⟨given, listed, rfl⟩ := List.mem_map.mp later
      exact ⟨given, .tail _ listed, rfl, shown⟩

theorem runs_sized {turn : Turn} (member : turn ∈ shownTurns turns) : (s.sized turn).runs = turn.2.map s.patches := by
  obtain ⟨_, _, _, none | ⟨_, renders⟩⟩ := shownTurns_spec member
  · simp [sized, Message.runs, none]
  · rw [Message.runs, sized]
    have rendered : FrontEnds.rendersImages { turn.1 with imageTokenCounts := turn.2.map fun bytes => (s.patches bytes : Int) } =
        true := renders
    rw [if_pos rendered, List.map_map]
    exact List.map_congr_left fun _ _ => Int.toNat_natCast _

theorem encode_scan (s : VisionServer K) {text : Bytes} {ids : List Int}
    (scanned : s.fe.tok.impl.literalTable.scan (s.fe.tok.impl.encodePlain s.fe.tables) [] text = some ids) :
    ∃ front, (Markers.items s.id).Free front ∧ s.fe.tok.encode s.fe.tables text = some (front ++ ids) := by
  have encoded : s.fe.tok.impl.encode s.fe.tables text = some ids := by
    rw [← scanned]
    cases s.fe.tok.impl with
    | bpe t => exact t.encodeLoop_eq_scan s.fe.tables [] text
    | spm t => rfl
  rw [Tokenizer.encode, encoded, Option.map_some]
  split_ifs
  · exact ⟨[s.fe.tok.bosId], Markers.free_items_iff.mpr fun k member => s.no_bos k (List.mem_singleton.mp member).symm, rfl⟩
  · exact ⟨[], Markers.free_items_iff.mpr fun k => List.not_mem_nil, rfl⟩

theorem encode_blocks (s : VisionServer K) {text : Bytes} {counts : List Nat} (blocks : visionText.Blocks text counts) :
    ∃ ids, s.fe.tok.encode s.fe.tables text = some ids ∧ (Markers.items s.id).Blocks ids counts := by
  obtain ⟨ids, scanned, marked⟩ := s.marks.scan_blocks blocks
  obtain ⟨front, clean, encoded⟩ := s.encode_scan scanned
  have opening : (Markers.items s.id).Blocks front [] := .free clean
  exact ⟨_, encoded, opening.append marked Markers.apart_items⟩

theorem renderChatTemplate_eq (s : VisionServer K) (messages : List Message) (enableThinking : Bool) :
    ∃ openThink, renderChatTemplate messages true s.fe.date s.fe.tok.chatFormat [] enableThinking =
      (promptTexts messages).flatten ++ generationText openThink enableThinking := by
  have chatMl := s.chatMl
  cases format : s.fe.tok.chatFormat with
  | llama3 => exact absurd format chatMl
  | qwen3 => exact ⟨false, renderQwen3_eq messages enableThinking false⟩
  | qwen35 => exact ⟨true, renderQwen3_eq messages enableThinking true⟩

/-- The text of a request with images. -/
noncomputable def rendered (s : VisionServer K) (settings : ApiRequest) (turns : List Turn) : Bytes :=
  renderChatTemplate ((shownTurns turns).map s.sized) true s.fe.date s.fe.tok.chatFormat [] settings.enableThinking

theorem promptText_eq (s : VisionServer K) (settings : ApiRequest) (images : (settings.withTurns turns).hasImages = true)
    (fresh : ∀ turn ∈ turns, turn.1.imageTokenCounts = [])
    (decodable : ∀ turn ∈ turns, ∀ bytes ∈ turn.2, Decodable s.lib bytes) :
    s.fe.promptText (.http (settings.withTurns turns)) = s.rendered settings turns := by
  have made := s.messagesWithImages_eq (settings.withTurns turns) rfl rfl fresh decodable
  simp only [FrontEnds.promptText, images, if_true, made]
  rfl

theorem makeRequest_eq (s : VisionServer K) (settings : ApiRequest) (images : (settings.withTurns turns).hasImages = true)
    (fresh : ∀ turn ∈ turns, turn.1.imageTokenCounts = [])
    (decodable : ∀ turn ∈ turns, ∀ bytes ∈ turn.2, Decodable s.lib bytes) {ids : List Int}
    (encoded : s.fe.tok.encode s.fe.tables (s.rendered settings turns) = some ids) :
    ∃ req, s.fe.makeRequest (settings.withTurns turns) = some (.ok req) ∧ req.promptIds = ids ∧
      req.mmImages = (shownTurns turns).flatMap (·.2) := by
  have made := s.messagesWithImages_eq (settings.withTurns turns) rfl rfl fresh decodable
  have applied : s.fe.tok.applyChatTemplate s.fe.tables ((shownTurns turns).map s.sized) s.fe.date []
      (settings.withTurns turns).enableThinking = some ids := encoded
  simp only [FrontEnds.makeRequest, images, if_true, s.vision, Bool.not_true, made, applied]
  exact ⟨_, rfl, rfl, rfl⟩

/-! ### The prefill -/

/-- The features of each image take the placeholders of its block. -/
def Places (s : VisionServer K) (vit : Preprocessed K → List R) (promptIds : List Int) (mmImages : List Bytes) : Prop :=
  ∃ images features grids, mmImages.mapM s.lib.decodeImage = .ok images ∧
    List.Forall₂ (fun image feature => ∃ pre, preprocessImage s.lib image s.cfg = .ok pre ∧ vit pre = feature) images features ∧
    prepareMultimodalPrefill s.lib s.cfg vit (s.id .pad) promptIds images = .ok (features.flatten, grids) ∧
    ∀ embeds, embeds.length = promptIds.length →
      Scattered s.id promptIds embeds (mergeImageFeatures (s.id .pad) promptIds embeds features.flatten) features

/-- The vision tower merges the patches of a grid. -/
def Merges (s : VisionServer K) (vit : Preprocessed K → List R) : Prop :=
  ∀ pre, (vit pre).length = pre.gridThw.t * pre.gridThw.h * pre.gridThw.w / (s.cfg.mergeSize * s.cfg.mergeSize)

theorem patches_eq {mmImages : List Bytes} {images : List RgbImage} {pres : List (Preprocessed K)}
    (each : List.Forall₂ (fun bytes image => s.lib.decodeImage bytes = .ok image) mmImages images)
    (made : List.Forall₂ (fun image pre => preprocessImage s.lib image s.cfg = .ok pre) images pres) :
    (pres.map fun pre => pre.gridThw.t * pre.gridThw.h * pre.gridThw.w / (s.cfg.mergeSize * s.cfg.mergeSize)) =
      mmImages.map s.patches := by
  induction each generalizing pres with
  | nil =>
    cases made
    rfl
  | cons decoded _ ih =>
    cases made with
    | cons processed made =>
      rw [List.map_cons, List.map_cons, ih made, patches, mergedPatches, decoded, ok_bind, processed]
      rfl

theorem places_of_blocks {vit : Preprocessed K → List R} (merges : s.Merges vit) {promptIds : List Int} {mmImages : List Bytes}
    (decodable : ∀ bytes ∈ mmImages, Decodable s.lib bytes) (some_image : mmImages ≠ [])
    (blocks : (Markers.items s.id).Blocks promptIds (mmImages.map s.patches)) : s.Places vit promptIds mmImages := by
  obtain ⟨images, decoded, each⟩ := mapM_forall₂ (f := s.lib.decodeImage) (P := fun bytes image =>
    s.lib.decodeImage bytes = .ok image) fun bytes member => by
      obtain ⟨image, decoded, _⟩ := decodable bytes member
      exact ⟨image, decoded, decoded⟩
  obtain ⟨pres, processed, made⟩ := mapM_forall₂ (f := fun image => preprocessImage s.lib image s.cfg)
    (P := fun image pre => preprocessImage s.lib image s.cfg = .ok pre) fun image (_ : image ∈ images) => by
      obtain ⟨pre, made, _⟩ := preprocessImage_ok s.lib image s.cfg
      exact ⟨pre, made, made⟩
  have sizes := patches_eq each made
  have some_images : images ≠ [] := by
    intro none
    rw [none, List.forall₂_nil_right_iff] at each
    exact some_image each
  have pads : promptIds.count (s.id .pad) =
      (pres.map fun pre => pre.gridThw.t * pre.gridThw.h * pre.gridThw.w / (s.cfg.mergeSize * s.cfg.mergeSize)).sum := by
    rw [sizes, blocks.count_pad s.distinct]
  refine ⟨images, pres.map vit, pres.map (·.gridThw), decoded, ?_, ?_, fun embeds size => ?_⟩
  · rw [List.forall₂_map_right_iff]
    exact made.imp fun _ pre made => ⟨pre, made, rfl⟩
  · simp only [prepareMultimodalPrefill, if_neg some_images, processed, ok_bind, ← pads, ne_eq, not_true_eq_false, if_false,
      List.flatMap_def]
    rfl
  · refine scattered_merge s.distinct blocks ?_ size
    rw [← sizes, List.map_map]
    exact List.map_congr_left fun pre _ => merges pre

/-! ### One order -/

/-- Images and vision blocks in one order: turn by turn in the text, and one by one in the prompt. -/
structure InOrder (s : VisionServer K) (turns : List Turn) (text : Bytes) (req : Request) : Prop where
  handed : req.mmImages = (shownTurns turns).flatMap (·.2)
  byTurn : ∃ texts closing, text = texts.flatten ++ closing ∧ visionText.Free closing ∧
    List.Forall₂ (fun text turn => visionText.Blocks text (turn.2.map s.patches)) texts (shownTurns turns)
  rendered : visionText.Blocks text (req.mmImages.map s.patches)
  prompt : (Markers.items s.id).Blocks req.promptIds (req.mmImages.map s.patches)

/-- The texts of a request with images: the blocks of each turn's text are the turn's images. -/
theorem texts_inOrder (s : VisionServer K) (unmarked : ∀ turn ∈ turns, turn.1.Unmarked)
    (fresh : ∀ turn ∈ turns, turn.1.imageTokenCounts = []) :
    List.Forall₂ VisionText.Segment (promptTexts ((shownTurns turns).map s.sized))
      ((shownTurns turns).map fun turn => turn.2.map s.patches) := by
  have each : ∀ m ∈ (shownTurns turns).map s.sized, m.Unmarked := by
    intro m member
    obtain ⟨turn, shown, rfl⟩ := List.mem_map.mp member
    obtain ⟨given, listed, same, _⟩ := shownTurns_spec shown
    have plain := unmarked given listed
    rw [← same] at plain
    exact ⟨plain.role, plain.content, plain.toolCall⟩
  have silent : ∀ m ∈ ((shownTurns turns).map s.sized).head?, m.role = ascii "system" → m.imageTokenCounts = [] := by
    intro m first system
    cases turns with
    | nil => cases first
    | cons turn rest =>
      rw [shownTurns, List.map_cons, List.head?_cons] at first
      obtain rfl := Option.some.inj first
      have role : turn.1.role = ascii "system" := by
        revert system
        split_ifs with leads
        · exact fun _ => leads
        · exact fun role => role
      rw [if_pos role]
      rfl
  have segments := VisionText.promptTexts_segments each silent
  rw [List.map_map] at segments
  have runs : (shownTurns turns).map (Message.runs ∘ s.sized) = (shownTurns turns).map fun turn => turn.2.map s.patches :=
    List.map_congr_left fun turn member => runs_sized member
  rwa [runs] at segments

end VisionServer

/-- However the messages are arranged, images and vision blocks come in one order, each block as long as its image has
merged patches, and the features go where they belong. -/
theorem images_in_order (s : VisionServer K) {js : JsonLib} {surface : ApiSurface} {body : Json} {turns : List Turn}
    (settings : ApiRequest) (parsed : surface.turns js body = .ok turns) (images : (settings.withTurns turns).hasImages = true)
    (unmarked : ∀ turn ∈ turns, turn.1.Unmarked) (decodable : ∀ turn ∈ turns, ∀ bytes ∈ turn.2, Decodable s.lib bytes) :
    ∃ req, s.fe.makeRequest (settings.withTurns turns) = some (.ok req) ∧
      s.InOrder turns (s.fe.promptText (.http (settings.withTurns turns))) req ∧
      ∀ vit : Preprocessed K → List R, s.Merges vit → req.mmImages ≠ [] → s.Places vit req.promptIds req.mmImages := by
  have fresh := turns_counts parsed
  obtain ⟨openThink, template⟩ := s.renderChatTemplate_eq ((shownTurns turns).map s.sized) settings.enableThinking
  have texts := s.texts_inOrder unmarked fresh
  have generation := VisionText.generationText_segment openThink settings.enableThinking
  have whole := ((VisionText.Segment.flatten texts).append generation).blocks
  have counts : ((shownTurns turns).map fun turn => turn.2.map s.patches).flatten ++ [] =
      ((shownTurns turns).flatMap (·.2)).map s.patches := by
    rw [List.append_nil, List.map_flatMap, List.flatMap_def]
  rw [counts, ← template] at whole
  obtain ⟨ids, encoded, blocks⟩ := s.encode_blocks whole
  obtain ⟨req, made, prompt, handed⟩ := s.makeRequest_eq settings images fresh decodable encoded
  have text := s.promptText_eq settings images fresh decodable
  have all_decodable : ∀ bytes ∈ (shownTurns turns).flatMap (·.2), Decodable s.lib bytes := by
    intro bytes member
    obtain ⟨turn, shown, inside⟩ := List.mem_flatMap.mp member
    obtain ⟨given, listed, _, none | ⟨same, _⟩⟩ := VisionServer.shownTurns_spec shown
    · rw [none] at inside
      cases inside
    · exact decodable given listed bytes (same ▸ inside)
  rw [← handed] at whole blocks all_decodable
  rw [← prompt] at blocks
  refine ⟨req, made, ⟨handed, ⟨promptTexts ((shownTurns turns).map s.sized), _, text.trans template, ?_, ?_⟩, ?_, blocks⟩, ?_⟩
  · exact generation.blocks.free_of_nil
  · exact (List.forall₂_map_right_iff.mp texts).imp fun _ _ segment => segment.blocks
  · rw [text]
    exact whole
  · exact fun vit merges some_image => VisionServer.places_of_blocks merges all_decodable some_image blocks

/-! ### A small server -/

namespace ImageOrder

def visionTokens : List Bytes := [ascii "<|vision_start|>", ascii "<|image_pad|>", ascii "<|vision_end|>", ascii "<|im_end|>"]

def visionId : Marker → Nat
  | .start => 0
  | .pad => 1
  | .stop => 2

def tables : UnicodeTables := ⟨fun _ => false, fun _ => false, (· == 0x20)⟩

theorem visionTokens_marks : (BpeTokenizer.assembleGguf visionTokens [] [3, 3, 3, 3] "qwen2").literalTable.Marks
    ((BpeTokenizer.assembleGguf visionTokens [] [3, 3, 3, 3] "qwen2").encodePlain tables) visionText fun k => visionId k := by
  refine BpeTokenizer.gguf_marks (by decide +kernel) ?_ ?_ ?_ ?_
  · intro k
    cases k <;> decide +kernel
  · intro k
    cases k <;> decide +kernel
  · intro k
    cases k <;> decide +kernel
  · intro n lit token _
    have each : ∀ lit ∈ visionTokens, lit ≠ [] ∧ 0x3C ∉ lit.tail ∧ 0x3E ∉ lit.dropLast := by decide +kernel
    exact each lit (List.mem_of_getElem? token)

/-- One black pixel. -/
def pixel : Bytes := ascii "P6 1 1 255\n" ++ [0, 0, 0]

/-- The codec on `pixel`. -/
def pixelLib : ImageLib where
  imageInfo := fun bytes => if bytes = pixel then .ok (1, 1) else .error (.runtime "image_info: unknown image type")
  decodeImage := fun bytes =>
    if bytes = pixel then .ok (blankImage 1 1) else .error (.runtime "decode_image: unknown image type")
  resample := fun _ _ _ _ => 0

noncomputable def visionServer : VisionServer ℚ where
  fe := {
    tok := ⟨.bpe (.assembleGguf visionTokens [] [3, 3, 3, 3] "qwen2"), -1, .qwen3⟩
    tables := tables
    date := []
    eosTokenIds := [3]
    modelName := ascii "qwen3-vl"
    maxCtx := 0
    hasVisionTower := true
    imageTokenCount := imageProbe pixelLib smallConfig }
  lib := pixelLib
  cfg := smallConfig
  id := fun k => visionId k
  vision := rfl
  probe := rfl
  chatMl := by decide
  distinct := by
    intro k k' same
    cases k <;> cases k' <;> first | rfl | cases same
  no_bos := by
    intro k
    cases k <;> decide
  marks := visionTokens_marks

theorem decodable_pixel : Decodable pixelLib pixel := ⟨blankImage 1 1, by rfl, by rfl⟩

/-- A message with one image. -/
def imageMessage (role : Bytes) : Json :=
  .object [("messages", .arr [.object [("role", .str role), ("content", .arr [.object [("type", .str (ascii "image_url")),
    ("image_url", .object [("url", .str (ascii "data:image/x-portable-pixmap;base64,UDYgMSAxIDI1NQoAAAA="))])]])]])]

def imageTurn (role : Bytes) : Turn := ({ role, content := [] }, [pixel])

/-- Nothing is parsed within these messages. -/
def noJson : JsonLib := { parse := fun _ => .error .parse, num := fun _ => [] }

theorem imageMessage_turns {role : Bytes} (known : role = ascii "user" ∨ role = ascii "<|image_pad|>") :
    ApiSurface.openAi.turns noJson (imageMessage role) = .ok [imageTurn role] := by
  rcases known with rfl | rfl <;> decide +kernel

def settings : ApiRequest := { messages := [] }

theorem images_in_order_pixel :
    ∃ req, visionServer.fe.makeRequest (settings.withTurns [imageTurn (ascii "user")]) = some (.ok req) ∧
      visionServer.InOrder [imageTurn (ascii "user")]
        (visionServer.fe.promptText (.http (settings.withTurns [imageTurn (ascii "user")]))) req ∧
      ∀ vit : Preprocessed ℚ → List Nat, visionServer.Merges vit → req.mmImages ≠ [] →
        visionServer.Places vit req.promptIds req.mmImages := by
  refine images_in_order visionServer settings (imageMessage_turns (.inl rfl)) rfl ?_ ?_
  · have unmarked : (imageTurn (ascii "user")).1.Unmarked := by
      constructor <;> intro k <;> cases k <;> decide +kernel
    simpa using unmarked
  · intro turn member bytes inside
    obtain rfl := List.mem_singleton.mp member
    obtain rfl := List.mem_singleton.mp inside
    exact decodable_pixel

/-- A turn whose role spells the placeholder. -/
def padTurn (bytes : Bytes) : Turn := ({ role := visionText .pad, content := [] }, [bytes])

theorem promptTexts_padTurn (s : VisionServer K) (bytes : Bytes) : promptTexts ((shownTurns [padTurn bytes]).map s.sized) =
    [ascii "<|im_start|>" ++ (visionText .pad ++
      (ascii "\n" ++ visionText.block (s.patches bytes) ++ ascii "<|im_end|>\n"))] := by
  have shown : shownTurns [padTurn bytes] = [padTurn bytes] := rfl
  have other (role : Bytes) (known : role ∈ [ascii "system", ascii "tool", ascii "assistant"]) :
      ¬(s.sized (padTurn bytes)).role = role := by
    intro same
    have plain : ∀ role ∈ [ascii "system", ascii "tool", ascii "assistant"], visionText .pad ≠ role := by decide +kernel
    exact plain role known same
  have blocks : visionBlocks (s.sized (padTurn bytes)) = visionText.block (s.patches bytes) := by
    simp [visionBlocks, VisionServer.sized, padTurn, Markers.block, visionText]
  rw [shown, List.map_singleton, promptTexts, if_neg (other _ (by simp)), turnTexts, turnTexts, turnText,
    if_neg (other _ (by simp)), if_neg (other _ (by simp)), blocks]
  simp [VisionServer.sized, padTurn]

/-- A role that spells the placeholder is one more in the prompt. -/
theorem count_pad_role (s : VisionServer K) {bytes : Bytes} (decodable : Decodable s.lib bytes) {req : Request}
    (made : s.fe.makeRequest (settings.withTurns [padTurn bytes]) = some (.ok req)) :
    req.mmImages = [bytes] ∧ req.promptIds.count (s.id .pad) = s.patches bytes + 1 := by
  have fresh : ∀ turn ∈ [padTurn bytes], turn.1.imageTokenCounts = [] := by simp [padTurn]
  have all_decodable : ∀ turn ∈ [padTurn bytes], ∀ b ∈ turn.2, Decodable s.lib b := by simpa [padTurn] using decodable
  obtain ⟨openThink, template⟩ := s.renderChatTemplate_eq ((shownTurns [padTurn bytes]).map s.sized) settings.enableThinking
  have text : s.rendered settings [padTurn bytes] = ascii "<|im_start|>" ++ (visionText .pad ++
      (ascii "\n" ++ visionText.block (s.patches bytes) ++ ascii "<|im_end|>\n" ++
        generationText openThink settings.enableThinking)) := by
    rw [VisionServer.rendered, template, promptTexts_padTurn, List.flatten_singleton]
    simp only [List.append_assoc]
  have tail : visionText.Blocks (ascii "\n" ++ visionText.block (s.patches bytes) ++ ascii "<|im_end|>\n" ++
      generationText openThink settings.enableThinking) [s.patches bytes] := by
    have line : VisionText.Segment (ascii "\n") [] := VisionText.segment_of_template _ (by decide +kernel) (by decide +kernel)
    exact (((line.append (VisionText.segment_block _)).append VisionText.closing_segment).append
      (VisionText.generationText_segment openThink settings.enableThinking)).blocks
  have opening : VisionText.Segment (ascii "<|im_start|>") [] :=
    VisionText.segment_of_template _ (by decide +kernel) (by decide +kernel)
  obtain ⟨later, scanned, blocks⟩ := s.marks.scan_blocks tail
  obtain ⟨ids, run, clean, plain, front⟩ := s.marks.scan_free [] (ascii "<|im_start|>") (visionText .pad ++ _)
    opening.blocks.free_of_nil (.inr rfl)
  rw [← text, s.marks.scan_marker, scanned, Option.map_some, Option.map_some] at front
  obtain ⟨bos, clean', encoded⟩ := s.encode_scan front
  obtain ⟨req', made', prompt, handed⟩ := s.makeRequest_eq settings rfl fresh all_decodable encoded
  obtain rfl : req = req' := Except.ok.inj (Option.some.inj (made.symm.trans made'))
  refine ⟨handed, ?_⟩
  have absent {xs : List Int} (free : (Markers.items s.id).Free xs) : xs.count (s.id .pad) = 0 :=
    List.count_eq_zero_of_not_mem (Markers.free_items_iff.mp free .pad)
  have later_count := blocks.count_pad s.distinct
  have run_count := absent (Markers.free_items_iff.mpr (s.marks.plain run plain))
  simp [prompt, absent clean, absent clean', run_count, later_count]

/-- Roles are not escaped. -/
theorem role_adds_placeholder : ¬∀ (s : VisionServer ℚ) (js : JsonLib) (surface : ApiSurface) (body : Json) (turns : List Turn)
    (settings : ApiRequest), surface.turns js body = .ok turns → (settings.withTurns turns).hasImages = true →
    (∀ turn ∈ turns, ∀ p ∈ s.fe.tok.impl.literalTable.literals, ¬p.1 <:+: turn.1.content ∧ ¬p.1 <:+: turn.1.toolCall) →
    (∀ turn ∈ turns, ∀ bytes ∈ turn.2, Decodable s.lib bytes) →
    ∃ req, s.fe.makeRequest (settings.withTurns turns) = some (.ok req) ∧
      (Markers.items s.id).Blocks req.promptIds (req.mmImages.map s.patches) := by
  intro ordered
  have plain : ∀ turn ∈ [imageTurn (visionText .pad)], ∀ p ∈ visionServer.fe.tok.impl.literalTable.literals,
      ¬p.1 <:+: turn.1.content ∧ ¬p.1 <:+: turn.1.toolCall := by
    intro turn member p listed
    obtain rfl := List.mem_singleton.mp member
    have some_text := visionTokens_marks.some_text p listed
    exact ⟨fun inside => some_text (List.infix_nil.mp inside), fun inside => some_text (List.infix_nil.mp inside)⟩
  have decodable : ∀ turn ∈ [imageTurn (visionText .pad)], ∀ bytes ∈ turn.2, Decodable visionServer.lib bytes := by
    intro turn member bytes inside
    obtain rfl := List.mem_singleton.mp member
    obtain rfl := List.mem_singleton.mp inside
    exact decodable_pixel
  obtain ⟨req, made, blocks⟩ := ordered visionServer noJson .openAi _ _ settings (imageMessage_turns (.inr rfl)) rfl plain decodable
  obtain ⟨handed, count⟩ := count_pad_role visionServer decodable_pixel made
  have pads := blocks.count_pad visionServer.distinct
  rw [count, handed, List.map_singleton, List.sum_singleton] at pads
  omega

end ImageOrder

end Mlxforge
