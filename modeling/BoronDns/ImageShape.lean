import BoronDns.ImageSearch

/-!
What compilation guarantees of an image. Its nodes are the trie of the owners,
so walking the labels of a name reaches the node of that name and the RRsets
found there are those with that owner; the covers noted at a node are NS and
DNAME RRsets of class IN.
-/

namespace BoronDns

open ZoneImageBuilder List ZoneImage ArenaTrie

variable {rrsetId node : ℕ} {qclass : UInt16} {hint : Bool} {origin qname : DomainName}
  {rrset : ImageRrset} {resolved : List (ℕ × Bool)} {rrsets : List Rrset}
  {entries : List (ℕ × ImageRrset)} {serial : Option UInt32}

namespace ZoneImage

/-- The facts about a compiled image that its lookups rest on. -/
structure WellBuilt (image : ZoneImage) : Prop where
  builds : image.nodes.map NameNode.build = buildNodes image.origin image.rrsets
  nodes_eq : image.nodes = materialiseNodes image.rrsets (buildNodes image.origin image.rrsets)
  in_zone : ∀ rrset ∈ image.rrsets, rrset.owner.isEqualOrSubdomainOf image.origin = true
  fits : ∀ rrset ∈ image.rrsets, ∀ record ∈ rrset.records, record.rdata.length ≤ 65535 ∧
    record.rdataEncoding = zoneImageRdataEncoding rrset.rrType record.rdata

end ZoneImage

theorem map_materialiseNodes {α : Type} {f : NameNode → α} {g : BuildNode × ℕ → α}
    {rrsets : List ImageRrset} {nodes : List BuildNode}
    (h : ∀ done entry,
      f (materialiseNode rrsets (ordinaryNameFlags rrsets nodes) done entry.2 entry.1) = g entry) :
    (materialiseNodes rrsets nodes).map f = nodes.zipIdx.map g := by
  unfold materialiseNodes
  induction nodes.zipIdx using List.reverseRecOn with
  | nil => rfl
  | append_singleton entries entry ih => simp [foldl_append, ih, h]

theorem mem_sortRdatas {rdata : Rdata} {rdatas : List Rdata} :
    rdata ∈ sortRdatas rdatas ↔ rdata ∈ rdatas :=
  (perm_insertionSort _ rdatas).mem_iff

theorem mem_sortRrsets {rrset : Rrset} : rrset ∈ sortRrsets rrsets ↔ rrset ∈ rrsets :=
  (perm_insertionSort _ rrsets).mem_iff

variable {image : ZoneImage}

/-- What compilation checks, and what it returns when the checks pass. -/
theorem ZoneImage.compileRrsets_ok (h : compileRrsets origin serial rrsets = .ok image) :
    (∀ rrset ∈ rrsets, rrset.owner.isEqualOrSubdomainOf origin = true) ∧
      (∀ rrset ∈ rrsets, ∀ rdata ∈ rrset.rdatas, rdata.length ≤ 65535) ∧ image.origin = origin ∧
      image.serial = serial ∧
      image.rrsets = (sortRrsets rrsets).map (imageRrset rrsets) ∧
      image.nodes = materialiseNodes image.rrsets (buildNodes image.origin image.rrsets) := by
  unfold compileRrsets at h
  split at h
  · simp at h
  rename_i hzone
  split at h
  · simp at h
  rename_i hlong
  obtain rfl := Except.ok.inj h
  refine ⟨?_, ?_, rfl, rfl, rfl, rfl⟩
  · intro rrset hrrset
    have := List.find?_eq_none.mp hzone rrset hrrset
    simpa using this
  · intro rrset hrrset rdata hrdata
    by_contra hbig
    apply hlong
    rw [any_eq_true]
    refine ⟨rrset, hrrset, ?_⟩
    rw [any_eq_true]
    exact ⟨rdata, hrdata, by simpa using hbig⟩

theorem ZoneImage.compileRrsets_wellBuilt
    (h : compileRrsets origin serial rrsets = .ok image) : image.WellBuilt := by
  obtain ⟨hzone, hlen, horigin, -, hrrsets, hnodes⟩ := compileRrsets_ok h
  refine ⟨?_, hnodes, ?_, ?_⟩
  · rw [hnodes, map_materialiseNodes fun _ _ => rfl]
    simp
  · intro rrset hrrset
    rw [hrrsets] at hrrset
    obtain ⟨stored, hstored, rfl⟩ := mem_map.mp hrrset
    rw [horigin]
    exact hzone stored (mem_sortRrsets.mp hstored)
  · intro rrset hrrset record hrec
    rw [hrrsets] at hrrset
    obtain ⟨stored, hstored, rfl⟩ := mem_map.mp hrrset
    obtain ⟨rdata, hrdata, rfl⟩ := mem_map.mp hrec
    exact ⟨hlen stored (mem_sortRrsets.mp hstored) rdata (mem_sortRdatas.mp hrdata), rfl⟩

theorem mem_nodeRrsets {rrsets : List ImageRrset} {node : BuildNode} :
    (rrsetId, rrset) ∈ nodeRrsets rrsets node ↔ rrsetId ∈ node.items ∧
      rrsets[rrsetId]? = some rrset := by
  simp only [nodeRrsets, mem_filterMap, Option.map_eq_some_iff, Prod.mk.injEq]
  constructor
  · rintro ⟨id, hid, found, hfound, rfl, rfl⟩
    exact ⟨hid, hfound⟩
  · rintro ⟨hid, hfound⟩
    exact ⟨rrsetId, hid, rrset, hfound, rfl, rfl⟩

variable {name : DomainName}

/-- A lowercase hint that is true makes no difference to the label looked up. -/
theorem hinted_label (h : name.LowercaseHint hint) {label : Label} (hlabel : label ∈ name.labels) :
    (if hint then label else lowerLabel label) = lowerLabel label := by
  cases hint with
  | false => rfl
  | true => exact (h rfl label hlabel).symm

theorem lowerLabels_of_inZone (h : name.isEqualOrSubdomainOf origin = true) :
    name.lowerLabels = (ownerPath origin name).reverse ++ origin.lowerLabels := by
  obtain ⟨front, hfront⟩ := (DomainName.isEqualOrSubdomainOf_iff name origin).mp h
  have hlen := congrArg List.length hfront
  simp only [length_append, DomainName.length_lowerLabels, DomainName.labelCount] at hlen
  rw [ownerPath, reverse_reverse, map_take]
  change name.lowerLabels = List.take _ name.lowerLabels ++ _
  rw [← hfront, take_left' (by omega)]

/-- Names of one zone with one path are equal up to case. -/
theorem ownerPath_inj {left right : DomainName} (hleft : left.isEqualOrSubdomainOf origin = true)
    (hright : right.isEqualOrSubdomainOf origin = true)
    (h : ownerPath origin left = ownerPath origin right) :
    left.lowerLabels = right.lowerLabels := by
  rw [lowerLabels_of_inZone hleft, lowerLabels_of_inZone hright, h]

namespace ZoneImage

def numbered (image : ZoneImage) : List (ℕ × ImageRrset) :=
  (List.range image.rrsets.length).filterMap fun rrsetId => image.rrsets[rrsetId]?.map fun rrset =>
    (rrsetId, rrset)

variable {image : ZoneImage}

theorem mem_numbered : (rrsetId, rrset) ∈ image.numbered ↔ image.rrsets[rrsetId]? = some rrset := by
  simp only [numbered, mem_filterMap, mem_range, Option.map_eq_some_iff, Prod.mk.injEq]
  constructor
  · rintro ⟨id, -, found, hfound, rfl, rfl⟩
    exact hfound
  · intro h
    exact ⟨rrsetId, (List.getElem?_eq_some_iff.mp h).1, rrset, h, rfl, rfl⟩

/-- `paths` names the path of every node of the image, and the RRsets at a node
are those whose owner has that path. -/
structure Paths (image : ZoneImage) (paths : List (List Label)) : Prop where
  shape : Shape (image.nodes.map NameNode.build) paths
  mem_iff : ∀ q, q ∈ paths ↔
    q = [] ∨ ∃ rrset ∈ image.rrsets, q <+: ownerPath image.origin rrset.owner
  at_node : ∀ (j : ℕ) (q : List Label), paths[j]? = some q →
    image.rrsetsAtNode j =
      image.numbered.filter fun entry => ownerPath image.origin entry.2.owner = q

theorem WellBuilt.exists_paths (h : image.WellBuilt) : ∃ paths, image.Paths paths := by
  obtain ⟨paths, hshape, hmem, hitems⟩ := attachAll_shape
    (rrsetPath image.origin image.rrsets) (List.range image.rrsets.length)
  change Shape (buildNodes image.origin image.rrsets) paths at hshape
  rw [← h.builds] at hshape
  refine ⟨paths, hshape, ?_, ?_⟩
  · intro q
    rw [hmem q]
    constructor
    · rintro (rfl | ⟨rrsetId, hid, hpre⟩)
      · exact Or.inl rfl
      · have hlt := mem_range.mp hid
        rw [rrsetPath, List.getElem?_eq_getElem hlt] at hpre
        exact Or.inr ⟨_, getElem_mem hlt, hpre⟩
    · rintro (rfl | ⟨rrset, hrrset, hpre⟩)
      · exact Or.inl rfl
      · obtain ⟨rrsetId, hid⟩ := mem_iff_getElem?.mp hrrset
        refine Or.inr ⟨rrsetId, mem_range.mpr (List.getElem?_eq_some_iff.mp hid).1, ?_⟩
        rw [rrsetPath, hid]
        exact hpre
  · intro j q hj
    have hlt : j < image.nodes.length := by simpa using hshape.lt_length hj
    have hnode : image.nodes[j]? = some image.nodes[j] := List.getElem?_eq_getElem hlt
    have hbuild : (buildNodes image.origin image.rrsets)[j]? = some image.nodes[j].build := by
      rw [← h.builds, List.getElem?_map, hnode]
      rfl
    have hown : image.nodes[j].build.items =
        (List.range image.rrsets.length).filter fun rrsetId =>
        rrsetPath image.origin image.rrsets rrsetId = q := by
      rw [← hitems j q hj]
      change _ = items (buildNodes image.origin image.rrsets) j
      rw [items, hbuild]
      rfl
    rw [rrsetsAtNode, hnode]
    simp only [nodeRrsets, hown, numbered, filterMap_filter, filter_filterMap]
    apply filterMap_congr
    intro rrsetId hid
    simp [rrsetPath, List.getElem?_eq_getElem (mem_range.mp hid), Option.filter]

variable {image : ZoneImage} {paths : List (List Label)}

theorem findChild_eq (image : ZoneImage) (node : ℕ) (label : Label) (hint : Bool) :
    image.findChildWithAsciiLowercaseHint node label hint = child
      (image.nodes.map NameNode.build) node
        (if hint then label else lowerLabel label) := by
  unfold findChildWithAsciiLowercaseHint child
  rw [List.getElem?_map]
  cases image.nodes[node]? <;> rfl

variable {name : DomainName}

/-- Walking the labels of a name is walking its path in the trie. -/
theorem walk_eq (hhint : name.LowercaseHint hint) (node : ℕ)
    (labels : List Label) (hlabels : ∀ label ∈ labels, label ∈ name.labels) :
    labels.foldlM (fun node label => image.findChildWithAsciiLowercaseHint node label hint) node =
      walk (image.nodes.map NameNode.build) node (labels.map lowerLabel) := by
  induction labels generalizing node with
  | nil => rfl
  | cons label rest ih =>
    have hfirst : image.findChildWithAsciiLowercaseHint node label hint =
        child (image.nodes.map NameNode.build) node (lowerLabel label) := by
      rw [findChild_eq, hinted_label hhint (hlabels label mem_cons_self)]
    rw [foldlM_cons, hfirst, map_cons, walk, foldlM_cons]
    congr 1
    funext next
    exact ih next fun other hother => hlabels other (mem_cons_of_mem _ hother)

theorem relativeLabelSlice_of_inZone (h : name.isEqualOrSubdomainOf origin = true) :
    relativeLabelSlice name origin = some
      (name.labels.take (name.labels.length - origin.labels.length)) := by
  rw [relativeLabelSlice, if_pos h]

/-- The node of a name in the zone is the node with its path. -/
theorem Paths.findNode_iff (h : image.Paths paths) (hhint : qname.LowercaseHint hint)
    (hzone : qname.isEqualOrSubdomainOf image.origin = true) (node : ℕ) :
    image.findNodeWithAsciiLowercaseHint qname hint = some node ↔
      paths[node]? = some (ownerPath image.origin qname) := by
  unfold findNodeWithAsciiLowercaseHint
  rw [relativeLabelSlice_of_inZone hzone]
  dsimp only
  rw [walk_eq hhint 0 _ fun label hlabel =>
    mem_of_mem_take (mem_reverse.mp hlabel), h.shape.walk_iff h.shape.root,
    nil_append, ownerPath, map_reverse]

theorem findNode_inZone (h : image.findNodeWithAsciiLowercaseHint qname hint = some node) :
    qname.isEqualOrSubdomainOf image.origin = true := by
  unfold findNodeWithAsciiLowercaseHint relativeLabelSlice at h
  by_contra hout
  simp [hout] at h

/-- An exact node of a query is the node of its name, and that name exists. -/
theorem queryNodeLoop_exact {labels : List Label} {start : ℕ} {closest : Option ℕ}
    (h : (image.queryNodeLoop hint labels start closest).1 = some node) :
    labels.foldlM (fun node label => image.findChildWithAsciiLowercaseHint node label hint)
        start = some node ∧ image.ordinaryNameExists node = true := by
  induction labels generalizing start closest with
  | nil =>
    simp only [queryNodeLoop] at h
    split at h
    next hexists =>
      obtain rfl := Option.some.inj h
      exact ⟨rfl, hexists⟩
    · simp at h
  | cons label rest ih =>
    simp only [queryNodeLoop] at h
    split at h
    · simp at h
    next child hchild =>
      obtain ⟨hwalk, hexists⟩ := ih h
      refine ⟨?_, hexists⟩
      rw [foldlM_cons, hchild]
      exact hwalk

theorem queryNodeHandles_exact (h : (image.queryNodeHandles qname hint).1 = some node) :
    image.findNodeWithAsciiLowercaseHint qname hint = some node ∧
      image.ordinaryNameExists node = true := by
  unfold queryNodeHandles at h
  unfold findNodeWithAsciiLowercaseHint
  split at h
  · simp at h
  · exact queryNodeLoop_exact h

variable {rrType : UInt16}

theorem scanRrset_mem (h : scanRrset rrType qclass entries = some rrsetId) :
    ∃ rrset, (rrsetId, rrset) ∈ entries ∧ rrset.rrType = rrType ∧
      qclassMatches rrset.cls qclass = true := by
  induction entries with
  | nil => simp [scanRrset] at h
  | cons entry rest ih =>
    obtain ⟨id, rrset⟩ := entry
    simp only [scanRrset] at h
    split at h
    · obtain ⟨found, hmem, hmatch⟩ := ih h
      exact ⟨found, mem_cons_of_mem _ hmem, hmatch⟩
    split at h
    · simp at h
    split at h
    next hmatch =>
      obtain rfl := Option.some.inj h
      exact ⟨rrset, mem_cons_self, hmatch⟩
    · obtain ⟨found, hmem, hmatch⟩ := ih h
      exact ⟨found, mem_cons_of_mem _ hmem, hmatch⟩

theorem scanAnyRrsets_mem (h : rrsetId ∈ scanAnyRrsets qclass entries) :
    ∃ rrset, (rrsetId, rrset) ∈ entries ∧ qclassMatches rrset.cls qclass = true ∧
      isDnssecProofOrSignatureType rrset.rrType = false := by
  induction entries with
  | nil => simp [scanAnyRrsets] at h
  | cons entry rest ih =>
    obtain ⟨id, rrset⟩ := entry
    simp only [scanAnyRrsets] at h
    split at h
    · obtain ⟨found, hmem, hmatch⟩ := ih h
      exact ⟨found, mem_cons_of_mem _ hmem, hmatch⟩
    split at h
    · simp at h
    split at h
    next hmatch =>
      rcases mem_cons.mp h with rfl | h
      · exact ⟨rrset, mem_cons_self, hmatch⟩
      · obtain ⟨found, hmem, hmatch⟩ := ih h
        exact ⟨found, mem_cons_of_mem _ hmem, hmatch⟩
    · obtain ⟨found, hmem, hmatch⟩ := ih h
      exact ⟨found, mem_cons_of_mem _ hmem, hmatch⟩

/-- Where an RRset of an ordinary type is found, the search for any type finds
something as well. -/
theorem scanAnyRrsets_ne_nil (htype : isDnssecProofOrSignatureType rrType = false)
    (h : scanRrset rrType qclass entries = some rrsetId) : scanAnyRrsets qclass entries ≠ [] := by
  induction entries with
  | nil => simp [scanRrset] at h
  | cons entry rest ih =>
    obtain ⟨id, rrset⟩ := entry
    simp only [scanRrset] at h
    simp only [scanAnyRrsets]
    split at h
    next hless =>
      rw [if_pos hless]
      exact ih h
    rename_i hless
    rw [if_neg hless]
    split at h
    · simp at h
    rename_i hstop
    rw [if_neg fun hgreater => hstop ⟨hgreater.1, Or.inl hgreater.2⟩]
    split at h
    next hmatch =>
      rw [if_pos ⟨hmatch.2, hmatch.1 ▸ htype⟩]
      simp
    · split
      · simp
      · exact ih h

theorem mem_rrsetsAtNode (h : (rrsetId, rrset) ∈ image.rrsetsAtNode node) :
    image.rrsets[rrsetId]? = some rrset := by
  unfold rrsetsAtNode at h
  split at h
  · simp at h
  · exact (mem_nodeRrsets.mp h).2

theorem findRrsetAtNode_spec (h : image.findRrsetAtNode node rrType qclass = some rrsetId) :
    ∃ rrset, (rrsetId, rrset) ∈ image.rrsetsAtNode node ∧ image.rrsets[rrsetId]? = some rrset ∧
      rrset.rrType = rrType ∧
      qclassMatches rrset.cls qclass = true := by
  obtain ⟨rrset, hmem, hmatch⟩ := scanRrset_mem h
  exact ⟨rrset, hmem, mem_rrsetsAtNode hmem, hmatch⟩

/-- What is found at the node of a name belongs to that name. -/
theorem Paths.owner_of_found (h : image.Paths paths) (hbuilt : image.WellBuilt)
    (hhint : qname.LowercaseHint hint)
    (hnode : image.findNodeWithAsciiLowercaseHint qname hint = some node)
    (hmem : (rrsetId, rrset) ∈ image.rrsetsAtNode node) :
    rrset.owner.lowerLabels = qname.lowerLabels := by
  have hzone := findNode_inZone hnode
  have hpath := (h.findNode_iff hhint hzone node).mp hnode
  rw [h.at_node node _ hpath] at hmem
  obtain ⟨hnumbered, hown⟩ := mem_filter.mp hmem
  have hrrset := mem_of_getElem? (mem_numbered.mp hnumbered)
  exact ownerPath_inj (hbuilt.in_zone rrset hrrset) hzone (by simpa using hown)

/-- The number of an RRset of class IN with the given type. -/
def IsInRrset (rrsets : List ImageRrset) (rrType : UInt16) (rrsetId : ℕ) : Prop :=
  ∃ rrset, rrsets[rrsetId]? = some rrset ∧ rrset.rrType = rrType ∧ rrset.cls = classIn

variable {rrsets : List ImageRrset}

theorem findBuildNodeInRrset_spec {node : BuildNode}
    (h : findBuildNodeInRrset rrsets node rrType = some rrsetId) :
    IsInRrset rrsets rrType rrsetId := by
  obtain ⟨⟨id, rrset⟩, hfound, rfl⟩ := Option.map_eq_some_iff.mp h
  have hmatch := List.find?_some hfound
  have hget := (mem_nodeRrsets.mp (mem_of_find?_eq_some hfound)).2
  simp only [Bool.and_eq_true, beq_iff_eq] at hmatch
  exact ⟨rrset, hget, hmatch.1, hmatch.2⟩

/-- The covers noted at a node are RRsets of the right kind. -/
def CoversValid (rrsets : List ImageRrset) (entry : NameNode) : Prop :=
  (∀ rrsetId, entry.nearestInDelegation = some rrsetId → IsInRrset rrsets RecordType.ns rrsetId) ∧
    ∀ rrsetId, entry.nearestInDname = some rrsetId → IsInRrset rrsets RecordType.dname rrsetId

theorem materialiseNode_coversValid {done : List NameNode}
    (hdone : ∀ entry ∈ done, CoversValid rrsets entry) (flags : List Bool) (index : ℕ)
    (node : BuildNode) : CoversValid rrsets (materialiseNode rrsets flags done index node) := by
  constructor
  · intro rrsetId h
    simp only [materialiseNode] at h
    split at h
    next delegation hinherited =>
      obtain rfl := Option.some.inj h
      split at hinherited
      · simp at hinherited
      · obtain ⟨parent, hparent, hnearest⟩ := Option.bind_eq_some_iff.mp hinherited
        exact (hdone parent (mem_of_getElem? hparent)).1 _ hnearest
    · split at h
      · simp at h
      · exact findBuildNodeInRrset_spec h
  · intro rrsetId h
    simp only [materialiseNode] at h
    split at h
    next dname hinherited =>
      obtain rfl := Option.some.inj h
      split at hinherited
      · simp at hinherited
      · obtain ⟨parent, hparent, hnearest⟩ := Option.bind_eq_some_iff.mp hinherited
        exact (hdone parent (mem_of_getElem? hparent)).2 _ hnearest
    · exact findBuildNodeInRrset_spec h

theorem materialiseNodes_coversValid (rrsets : List ImageRrset) (nodes : List BuildNode) :
    ∀ entry ∈ materialiseNodes rrsets nodes, CoversValid rrsets entry := by
  have key : ∀ (entries : List (BuildNode × ℕ)) (flags : List Bool) (done : List NameNode),
      (∀ entry ∈ done, CoversValid rrsets entry) →
      ∀ entry ∈ entries.foldl (fun done entry =>
        done ++ [materialiseNode rrsets flags done entry.2 entry.1]) done,
        CoversValid rrsets entry := by
    intro entries flags
    induction entries with
    | nil => exact fun done hdone => hdone
    | cons entry rest ih =>
      intro done hdone
      refine ih _ ?_
      intro other hother
      rcases mem_append.mp hother with hother | hother
      · exact hdone other hother
      · rw [mem_singleton.mp hother]
        exact materialiseNode_coversValid hdone flags entry.2 entry.1
  exact key _ _ [] (by simp)

theorem WellBuilt.coversValid (h : image.WellBuilt) {entry : NameNode}
    (hentry : entry ∈ image.nodes) : CoversValid image.rrsets entry := by
  rw [h.nodes_eq] at hentry
  exact materialiseNodes_coversValid _ _ entry hentry

def IsRrset (image : ZoneImage) (rrsetId : ℕ) : Prop := rrsetId < image.rrsets.length

theorem isRrset_of_getElem? (h : image.rrsets[rrsetId]? = some rrset) : image.IsRrset rrsetId :=
  (List.getElem?_eq_some_iff.mp h).1

theorem findRrsetAtNode_isRrset
    (h : image.findRrsetAtNode node rrType qclass = some rrsetId) : image.IsRrset rrsetId := by
  obtain ⟨rrset, -, hget, -⟩ := findRrsetAtNode_spec h
  exact isRrset_of_getElem? hget

theorem anyRrsetsAtNode_isRrset (h : rrsetId ∈ image.anyRrsetsAtNode node qclass) :
    image.IsRrset rrsetId := by
  obtain ⟨rrset, hmem, -⟩ := scanAnyRrsets_mem h
  exact isRrset_of_getElem? (mem_rrsetsAtNode hmem)

theorem findRrsetByKey_isRrset {key : RrsetKey} (h : image.findRrsetByKey key = some rrsetId) :
    image.IsRrset rrsetId := by
  obtain ⟨hlt, -⟩ := findIdx?_eq_some_iff_getElem.mp h
  exact isRrset_of_getElem? (getElem?_eq_getElem hlt)

theorem soaRrset_isRrset (h : image.soaRrset qclass = some rrsetId) : image.IsRrset rrsetId := by
  unfold soaRrset at h
  generalize (if qclass = classAny then classIn else qclass) = cls at h
  dsimp only at h
  split at h
  · exact findRrsetByKey_isRrset h
  · exact findRrsetAtNode_isRrset h

theorem isRrset_or {first second : Option ℕ} (hfirst : ∀ id, first = some id → image.IsRrset id)
    (hsecond : ∀ id, second = some id → image.IsRrset id) :
    ∀ id, first.or second = some id → image.IsRrset id := by
  intro id h
  rcases Option.or_eq_some_iff.mp h with h | ⟨-, h⟩
  · exact hfirst id h
  · exact hsecond id h

theorem delegationWalk_isRrset {fuel : ℕ} {firstCut : Option ℕ} (hcut : ∀ cut, firstCut = some cut →
      image.IsRrset cut)
    (h : image.delegationWalk qclass fuel node firstCut = some rrsetId) :
    image.IsRrset rrsetId := by
  induction fuel generalizing node firstCut with
  | zero => exact hcut rrsetId h
  | succ fuel ih =>
    simp only [delegationWalk] at h
    split at h
    · exact hcut rrsetId h
    · exact ih (isRrset_or (fun _ => findRrsetAtNode_isRrset) hcut) h

variable {exactNode : Option ℕ}

theorem dnameWalk_isRrset {fuel : ℕ} {firstDname : Option ℕ}
    (hfirst : ∀ dname, firstDname = some dname → image.IsRrset dname)
    (h : image.dnameWalk exactNode qclass fuel node firstDname = some rrsetId) :
    image.IsRrset rrsetId := by
  induction fuel generalizing node firstDname with
  | zero => exact hfirst rrsetId h
  | succ fuel ih =>
    simp only [dnameWalk] at h
    have hnext : ∀ dname, (if some node = exactNode then firstDname else
        (image.findRrsetAtNode node RecordType.dname qclass).or firstDname) = some dname →
        image.IsRrset dname := by
      split
      · exact hfirst
      · exact isRrset_or (fun _ => findRrsetAtNode_isRrset) hfirst
    split at h
    · exact hnext rrsetId h
    · exact ih hnext h

theorem WellBuilt.dname_isRrset (h : image.WellBuilt)
    (hdname : image.dnameForNode exactNode node qclass = some rrsetId) : image.IsRrset rrsetId := by
  have hnearest : ∀ {index : ℕ}, image.nodes[index]?.bind NameNode.nearestInDname = some rrsetId →
      image.IsRrset rrsetId := by
    intro index hbind
    obtain ⟨entry, hentry, hnearest⟩ := Option.bind_eq_some_iff.mp hbind
    obtain ⟨rrset, hget, -⟩ := (h.coversValid (mem_of_getElem? hentry)).2 _ hnearest
    exact isRrset_of_getElem? hget
  unfold dnameForNode at hdname
  split at hdname
  · split at hdname
    · simp only [nearestInheritedInDname] at hdname
      split at hdname
      · simp at hdname
      · exact hnearest hdname
    · exact hnearest hdname
  · exact dnameWalk_isRrset (by simp) hdname

/-- A list of related RRsets that all exist. -/
def AllRrsets (image : ZoneImage) (resolved : List (ℕ × Bool)) : Prop :=
  ∀ entry ∈ resolved, image.IsRrset entry.1

theorem addResolved_all (h : image.AllRrsets resolved) {entry : ℕ × Bool}
    (hentry : image.IsRrset entry.1) : image.AllRrsets (addResolved resolved entry) := by
  unfold addResolved
  split
  · exact h
  · intro other hother
    rcases mem_append.mp hother with hother | hother
    · exact h other hother
    · rw [mem_singleton.mp hother]
      exact hentry

theorem pushAddressRelation_all (h : image.AllRrsets resolved) (target : DomainName) (cls : UInt16)
    (effectiveOwner : Bool) (addressType : UInt16) :
    image.AllRrsets (image.pushAddressRelation target cls effectiveOwner resolved addressType) := by
  unfold pushAddressRelation
  split
  · exact h
  next rrsetId hfound => exact addResolved_all h (findRrsetByKey_isRrset hfound)

theorem pushAddressRelations_all (h : image.AllRrsets resolved) (targetWire : List UInt8)
    (cls : UInt16) (effectiveOwner : Bool) :
    image.AllRrsets
      (image.pushAddressRelationsForTargetWire targetWire cls effectiveOwner resolved) := by
  unfold pushAddressRelationsForTargetWire
  split
  · exact h
  · exact List.foldlRecOn _ _ h fun _ hresolved addressType _ =>
      pushAddressRelation_all hresolved _ _ _ addressType

theorem pushAdditionalRelationsForRecord_all (h : image.AllRrsets resolved) (rrsetId : ℕ)
    (rrset : ImageRrset) (record : ImageRecord) :
    image.AllRrsets (image.pushAdditionalRelationsForRecord rrsetId rrset resolved record) := by
  unfold pushAdditionalRelationsForRecord
  split
  · exact h
  rename_i target _
  dsimp only
  generalize (if targetsEffectiveOwner rrset record target =
    true then rrset.owner.toWire else target) = targetWire
  split
  · exact h
  split
  · exact h
  refine pushAddressRelations_all ?_ _ _ _
  split
  · split
    · exact h
    split
    · exact h
    rename_i targetRrset hfound
    split
    · exact h
    · exact addResolved_all h (findRrsetByKey_isRrset hfound)
  · exact h

theorem precomputedAdditionalRelations_all (rrsetId : ℕ) :
    image.AllRrsets (image.precomputedAdditionalRelations rrsetId) := by
  have hnil : image.AllRrsets [] := by simp [AllRrsets]
  unfold precomputedAdditionalRelations
  split
  · exact hnil
  split
  · exact List.foldlRecOn _ _ hnil fun _ hresolved record _ =>
      pushAdditionalRelationsForRecord_all hresolved _ _ record
  · exact hnil

theorem pushGlueRelationsForRecord_all (h : image.AllRrsets resolved) (cls : UInt16)
    (record : ImageRecord) :
    image.AllRrsets (image.pushGlueRelationsForRecord cls resolved record) := by
  unfold pushGlueRelationsForRecord
  split
  · exact h
  split
  · exact pushAddressRelations_all h _ _ _
  · exact h

theorem precomputedReferralGlueRelations_isRrset {nsRrset : ℕ}
    (h : rrsetId ∈ image.precomputedReferralGlueRelations nsRrset) : image.IsRrset rrsetId := by
  unfold precomputedReferralGlueRelations at h
  split at h
  · simp at h
  split at h
  · simp at h
  · obtain ⟨entry, hentry, rfl⟩ := mem_map.mp h
    have hnil : image.AllRrsets [] := by simp [AllRrsets]
    exact List.foldlRecOn (motive := image.AllRrsets) _ _ hnil
      (fun _ hresolved record _ => pushGlueRelationsForRecord_all hresolved _ record) entry hentry

theorem rrsetRecordCount_of_get (h : image.rrsets[rrsetId]? = some rrset) :
    image.rrsetRecordCount rrsetId = rrset.records.length := by
  rw [rrsetRecordCount, h]

/-- An RRset without records asks for no additional records. -/
theorem records_of_mem_additionalRelations {relation : ℕ × Bool}
    (h : relation ∈ image.precomputedAdditionalRelations rrsetId) :
    0 < image.rrsetRecordCount rrsetId := by
  unfold precomputedAdditionalRelations at h
  split at h
  · simp at h
  rename_i rrset hget
  split at h
  · rw [rrsetRecordCount_of_get hget]
    refine length_pos_iff.mpr fun hnil => ?_
    simp [hnil] at h
  · simp at h

theorem records_of_mem_glueRelations {nsRrset : ℕ}
    (h : rrsetId ∈ image.precomputedReferralGlueRelations nsRrset) :
    0 < image.rrsetRecordCount nsRrset := by
  unfold precomputedReferralGlueRelations at h
  split at h
  · simp at h
  rename_i rrset hget
  split at h
  · simp at h
  · rw [rrsetRecordCount_of_get hget]
    refine length_pos_iff.mpr fun hnil => ?_
    simp [hnil] at h

end ZoneImage

end BoronDns
