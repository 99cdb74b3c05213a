import GrammarArt.Proofs.Json.Number
import GrammarArt.Request.Json

/-! # Requests that are read back

A request is written as one JSON value and read back as the request it was
(`Request.wire_round_trip`).  Texts are no obstacle, since all their characters are escaped or kept,
nor are whole numbers, which fit their 32 bits.  Singles are written with the fewest digits and read
by way of double precision, which is exact enough for every finite one (`Json.float32?_ofFloat32`);
so a feed is always read back, and a request to start if its time is finite.

A record is read by its names (`Json.record?_ofFields`), so the only thing to know of a variant is
that its names differ from each other.
-/
namespace GrammarArt

open Json

namespace Json

/-! ### Records -/

theorem wellFormed_ofFields {fields : List (String × Json)}
    (h : ∀ field ∈ fields, field.2.WellFormed) : (ofFields fields).WellFormed := by
  refine .object fun field hfield => ?_
  obtain ⟨named, hnamed, rfl⟩ := List.mem_map.mp hfield
  exact h named hnamed

theorem wellFormed_ofVariant (name : String) {value : Json} (h : value.WellFormed) :
    (ofVariant name value).WellFormed := wellFormed_ofFields (List.forall_mem_singleton.mpr h)

/-- A list is read if each of its items is. -/
theorem mapM_eq_some {α β : Type} {read? : α → Option β} (value : α → β) {items : List α}
    (h : ∀ item ∈ items, read? item = some (value item)) :
    items.mapM read? = some (items.map value) := by
  induction items with
  | nil => rfl
  | cons item items ih =>
    obtain ⟨hitem, hitems⟩ := List.forall_mem_cons.mp h
    rw [List.mapM_cons, hitem, ih hitems]
    rfl

/-- A field whose name is given once is found by it. -/
theorem valuesOf_ofFields {fields : List (String × Json)}
    (hnames : (fields.map Prod.fst).Nodup) {field : String × Json} (hmem : field ∈ fields) :
    valuesOf field.1 (fields.map fun (name, value) => (some name, value)) = [field.2] := by
  have hother {others : List (String × Json)} (h : field.1 ∉ others.map Prod.fst) :
      valuesOf field.1 (others.map fun (name, value) => (some name, value)) = [] := by
    rw [valuesOf, List.map_eq_nil_iff, List.filter_eq_nil_iff]
    rintro _ hother hname
    obtain ⟨other, hmem, rfl⟩ := List.mem_map.mp hother
    exact h (List.mem_map.mpr ⟨other, hmem, Option.some.inj (of_decide_eq_true hname)⟩)
  induction fields with
  | nil => cases hmem
  | cons first fields ih =>
    obtain ⟨hfirst, hrest⟩ := List.nodup_cons.mp hnames
    rw [List.map_cons, valuesOf, List.filter_cons]
    rcases List.mem_cons.mp hmem with rfl | hmem
    · rw [if_pos (by simp), List.map_cons]
      exact congrArg _ (hother hfirst)
    · rw [if_neg]
      · exact ih hrest hmem
      · intro hname
        refine hfirst (List.mem_map.mpr ⟨field, hmem, ?_⟩)
        exact (Option.some.inj (of_decide_eq_true hname)).symm

/-- **A record gives the values of its fields**, in the order in which they were written. -/
theorem record?_ofFields (fields : List (String × Json))
    (hnames : (fields.map Prod.fst).Nodup) :
    record? (fields.map Prod.fst) (ofFields fields) =
      some (fields.map fun field => some field.2) := by
  have hfieldNames : fieldNames? (fields.map fun (name, value) => (some name, value)) =
      some (fields.map Prod.fst) := by
    rw [fieldNames?, List.mapM_map]
    exact mapM_eq_some _ fun _ _ => rfl
  rw [ofFields, record?, hfieldNames, List.mapM_map]
  refine mapM_eq_some _ fun field hmem => ?_
  rw [Function.comp_apply, field?, valuesOf_ofFields hnames hmem]

/-- The number of 32 bits is read back. -/
theorem uint32?_ofNat (n : UInt32) : (ofNat n.toNat).uint32? = some n := by
  rw [uint32?, natural?_ofNat n.toNat_lt, Option.map_some, UInt32.ofNat_toNat]

end Json

/-! ### Feeds -/

namespace Feed

theorem get_foldl_setNamed (feed : Feed) (vs : List Variable) (start : Feed) (w : Variable) :
    ((vs.map fun v => (v.name, feed.get v)).foldl
      (fun feed (name, value) => (feed.setNamed? name value).getD feed) start).get w =
        if w ∈ vs then feed.get w else start.get w := by
  induction vs generalizing start with
  | nil => rfl
  | cons v vs ih =>
    have hset : (start.setNamed? v.name (feed.get v)).getD start = start.set v (feed.get v) := by
      rw [setNamed?, Variable.ofName?_name]
      rfl
    rw [List.map_cons, List.foldl_cons, ih]
    show (if w ∈ vs then _ else ((start.setNamed? v.name (feed.get v)).getD start).get w) = _
    rw [hset, get_set, stored_of_isFinite (feed.isFinite_get v)]
    by_cases hmem : w ∈ vs
    · rw [if_pos hmem, if_pos (List.mem_cons_of_mem v hmem)]
    · rw [if_neg hmem]
      by_cases hv : w = v
      · rw [if_pos hv, if_pos (hv ▸ List.mem_cons_self), hv]
      · rw [if_neg hv, if_neg fun h => (List.mem_cons.mp h).elim hv hmem]

/-- **A feed is what its names and values describe.** -/
theorem ofNamed_toNamed (feed : Feed) : ofNamed feed.toNamed = feed := by
  ext w
  rw [ofNamed, toNamed, get_foldl_setNamed, if_pos (Variable.mem_byName w)]

/-- The names of a feed are in order, so none of them is given twice. -/
theorem pairwise_toNamed (feed : Feed) :
    feed.toNamed.Pairwise fun a b => a.1 < b.1 := by
  refine List.pairwise_map.mpr ?_
  show Variable.byName.Pairwise fun v w => v.name < w.name
  decide

theorem wellFormed_toJson (feed : Feed) : feed.toJson.WellFormed := by
  refine wellFormed_ofFields fun field hfield => ?_
  obtain ⟨entry, -, rfl⟩ := List.mem_map.mp hfield
  exact wellFormed_ofFloat32 entry.2

/-- All values of a feed are finite, so all of them are read back. -/
theorem ofJson?_toJson (feed : Feed) : ofJson? feed.toJson = some feed := by
  have htable : feed.toJson.table? = some feed.toNamed := by
    rw [toJson, ofFields, table?, List.mapM_map, List.mapM_map]
    refine (mapM_eq_some id fun entry hentry => ?_).trans (by rw [List.map_id])
    obtain ⟨v, -, rfl⟩ := List.mem_map.mp hentry
    simp only [Function.comp_apply, float32?_ofFloat32 (feed.isFinite_get v)]
    rfl
  rw [ofJson?, htable, Option.map_some, ofNamed_toNamed]

end Feed

/-! ### Requests to start -/

namespace Backend

theorem wellFormed_toJson (backend : Backend) : backend.toJson.WellFormed := by
  cases backend with
  | interpreted => exact .string _
  | compiled executor => exact wellFormed_ofVariant _ (.string _)

theorem ofJson?_toJson (backend : Backend) : ofJson? backend.toJson = some backend := by
  cases backend with
  | interpreted => rfl
  | compiled executor =>
    cases executor with
    | cpu => rfl
    | gpu => rfl

end Backend

namespace Source

theorem wellFormed_toJson (source : Source) : source.toJson.WellFormed := by
  cases source with
  | grammar text depth seed =>
    refine wellFormed_ofVariant _ (wellFormed_ofFields ?_)
    simp only [List.forall_mem_cons, wellFormed_ofNat, true_and]
    exact ⟨.string _, List.forall_mem_nil _⟩
  | expression text => exact wellFormed_ofVariant _ (.string _)

theorem ofJson?_toJson (source : Source) : ofJson? source.toJson = some source := by
  cases source with
  | grammar text depth seed =>
    have hnames : ["text", "depth", "seed"].Nodup := by decide
    have hrecord := record?_ofFields [("text", ofString text),
      ("depth", ofNat depth.toNat), ("seed", ofNat seed.toNat)] hnames
    have hvariant : ofJson? (grammar text depth seed).toJson = derivation? (ofFields
      [("text", ofString text), ("depth", ofNat depth.toNat), ("seed", ofNat seed.toNat)]) := rfl
    simp only [List.map_cons, List.map_nil] at hrecord
    rw [hvariant, derivation?, hrecord]
    simp only [uint32?_ofNat]
    rfl
  | expression text => rfl

end Source

namespace StartRequest

theorem wellFormed_toJson (request : StartRequest) : request.toJson.WellFormed := by
  refine wellFormed_ofFields ?_
  simp only [List.forall_mem_cons, wellFormed_ofNat, wellFormed_ofFloat32, true_and,
    Source.wellFormed_toJson, Backend.wellFormed_toJson, Feed.wellFormed_toJson]
  exact List.forall_mem_nil _

theorem ofJson?_toJson {request : StartRequest} (h : request.time.isFinite = true) :
    ofJson? request.toJson = some request := by
  have hnames : ["source", "width", "height", "backend", "time", "variables"].Nodup := by decide
  have hrecord := record?_ofFields [("source", request.source.toJson),
    ("width", ofNat request.width.toNat), ("height", ofNat request.height.toNat),
    ("backend", request.backend.toJson), ("time", ofFloat32 request.time),
    ("variables", request.feed.toJson)] hnames
  simp only [List.map_cons, List.map_nil] at hrecord
  rw [ofJson?, toJson, hrecord]
  simp only [Source.ofJson?_toJson, uint32?_ofNat, orDefault, Backend.ofJson?_toJson,
    float32?_ofFloat32 h, Feed.ofJson?_toJson]
  rfl

theorem decode?_encode {request : StartRequest} (h : request.time.isFinite = true) :
    decode? request.encode = some request := by
  rw [decode?, encode, read?_render request.wellFormed_toJson, Option.bind_some,
    ofJson?_toJson h]

end StartRequest

namespace Request

theorem wellFormed_toJson (request : Request) : request.toJson.WellFormed := by
  cases request with
  | start request => exact wellFormed_ofVariant _ request.wellFormed_toJson
  | next => exact .string _
  | setVariables feed => exact wellFormed_ofVariant _ feed.wellFormed_toJson

theorem ofJson?_toJson {request : Request}
    (h : ∀ options, request = start options → options.time.isFinite = true) :
    ofJson? request.toJson = some request := by
  cases request with
  | start request =>
    have hvariant : ofJson? (start request).toJson =
        (StartRequest.ofJson? request.toJson).map start := rfl
    rw [hvariant, StartRequest.ofJson?_toJson (h request rfl)]
    rfl
  | next => rfl
  | setVariables feed =>
    have hvariant : ofJson? (setVariables feed).toJson =
        (Feed.ofJson? feed.toJson).map setVariables := rfl
    rw [hvariant, Feed.ofJson?_toJson]
    rfl

theorem decode?_encode {request : Request}
    (h : ∀ options, request = start options → options.time.isFinite = true) :
    decode? request.encode = some request := by
  rw [decode?, encode, read?_render request.wellFormed_toJson, Option.bind_some,
    ofJson?_toJson h]

/-- **A request is read back from the text that it is written as**, alone or as a request to
start, if its time is finite; and so is a feed from its table of ten finite values. -/
theorem wire_round_trip (request : Request)
    (h : ∀ options, request = start options → options.time.isFinite = true) :
    decode? request.encode = some request ∧
    (∀ options, request = start options →
      StartRequest.decode? options.encode = some options) ∧
    ∀ feed : Feed, feed.toNamed.length = 10 ∧ feed.toNamed.Pairwise (fun a b => a.1 < b.1) ∧
      (∀ v, (v.name, feed.get v) ∈ feed.toNamed ∧ (feed.get v).isFinite = true) ∧
      Feed.ofNamed feed.toNamed = feed := by
  refine ⟨decode?_encode h, fun options hstart => StartRequest.decode?_encode (h options hstart),
    fun feed => ⟨rfl, feed.pairwise_toNamed, fun v => ⟨?_, ?_⟩, feed.ofNamed_toNamed⟩⟩
  · exact List.mem_map.mpr ⟨v, Variable.mem_byName v, rfl⟩
  · exact feed.isFinite_get v

/-- A request to start with a time that takes all its digits, and a text that has to be
escaped. -/
theorem wire_round_trip_tenth :
    let time := Float32.ofBits 0x3dcccccd
    let request := start ⟨.grammar "é\n\"" 3 7, 4, 4, .compiled .gpu, time,
      Feed.none.set .bass 0.1⟩
    time.isFinite = true ∧ decode? request.encode = some request := by
  intro time request
  have hfinite : time.isFinite = true := by decide
  exact ⟨hfinite, (wire_round_trip request fun _ hstart => Request.start.inj hstart ▸ hfinite).1⟩

end Request

end GrammarArt
