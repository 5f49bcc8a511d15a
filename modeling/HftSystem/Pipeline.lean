import HftSystem.BookRefinement
import HftSystem.InstrumentIdentity
import HftSystem.MarketDataIngester
import HftSystem.MarketFeed

/-!
The way of a price from the connection to the book: an upgrade response and frames on the
stream, in any pieces, the ingester with its parser, the ring, and the thread of the order
book manager, with the threads in any order. If no slot of the ring is overwritten, the
books hold what the messages say.
-/
namespace HftSystem

open ByteMemory WebSocket SbeWire MarketDataIngester OrderBook CircularWindow

/-! ### Frames that carry messages -/

/-- A frame that fits the buffer. A binary one carries whole messages, any other none. -/
structure FeedFrame where
  frame : Frame
  messages : List Message
  binary : isBinary frame = true → frame.payload = messages.flatMap Message.encode
  other : isBinary frame = false → messages = []
  fits : frame.header.length + frame.payload.length ≤ maxFrameSize

namespace FeedFrame

/-- The messages of the frames, in order. -/
def allMessages (fs : List FeedFrame) : List Message := fs.flatMap FeedFrame.messages

/-- What the server sends behind the response. -/
def bytes (fs : List FeedFrame) : List UInt8 := (fs.map FeedFrame.frame).flatMap Frame.encode

/-- The updates of the frames. The k-th binary frame is parsed with the readings `tsc k`. -/
def updates (idOf : List UInt8 → UInt32) :
    (tsc : ℕ → ℕ → UInt64) → List FeedFrame → List MarketUpdate
  | _, [] => []
  | tsc, f :: fs =>
    if isBinary f.frame then
      SbeWire.updates idOf (tsc 0) f.messages ++ updates idOf (fun n => tsc (n + 1)) fs
    else updates idOf tsc fs

end FeedFrame

/-! ### Parsing -/

section

variable {registry : VenueRegistry} {venueName : List UInt8} {idOf : List UInt8 → UInt32}

theorem parse_messages (ms : List Message)
    (hregistered : ∀ m, .depth m ∈ ms →
      registry.lookup venueName m.symbol.name = .ok (idOf m.symbol.name)) (tsc : ℕ → UInt64) :
    (binanceParser registry venueName).parse tsc (ms.flatMap Message.encode) =
      SbeWire.updates idOf tsc ms := by
  induction ms generalizing tsc with
  | nil => exact SBEVenueParser.parse_short (by decide) tsc
  | cons m ms ih =>
    have hrest := fun m' hm' => hregistered m' (List.mem_cons_of_mem m hm')
    rw [List.flatMap_cons]
    cases m with
    | depth m =>
      rw [Message.encode, parse_depth m (hregistered m List.mem_cons_self), ih hrest,
        SbeWire.updates]
    | bestBidAsk m =>
      rw [Message.encode, parse_bestBidAsk, ih hrest, SbeWire.updates]
    | trades m =>
      rw [Message.encode, parse_trades, ih hrest, SbeWire.updates]

theorem parsePayloads_frames (fs : List FeedFrame)
    (hregistered : ∀ m, .depth m ∈ FeedFrame.allMessages fs →
      registry.lookup venueName m.symbol.name = .ok (idOf m.symbol.name))
    (tsc : ℕ → ℕ → UInt64) :
    parsePayloads (binanceParser registry venueName) tsc
        (binaryPayloads (fs.map FeedFrame.frame)) = FeedFrame.updates idOf tsc fs := by
  induction fs generalizing tsc with
  | nil => rfl
  | cons f fs ih =>
    obtain ⟨hf, hfs⟩ : (∀ m, .depth m ∈ f.messages → registry.lookup venueName m.symbol.name =
        .ok (idOf m.symbol.name)) ∧ ∀ m, .depth m ∈ FeedFrame.allMessages fs →
        registry.lookup venueName m.symbol.name = .ok (idOf m.symbol.name) :=
      ⟨fun m hm => hregistered m (List.mem_append_left _ hm),
        fun m hm => hregistered m (List.mem_append_right _ hm)⟩
    rw [List.map_cons, binaryPayloads, List.filter_cons, FeedFrame.updates]
    by_cases hbinary : isBinary f.frame = true
    · rw [if_pos hbinary, if_pos hbinary, List.map_cons, parsePayloads, f.binary hbinary,
        parse_messages f.messages hf]
      exact congrArg _ (ih hfs _)
    · rw [if_neg hbinary, if_neg hbinary]
      exact ih hfs tsc

end

theorem handsOver_of_firstPiece (r : UpgradeResponse) (fs : List FeedFrame) {chunks : ℕ → ℕ}
    (hfirst : firstPiece chunks (r.bytes ++ FeedFrame.bytes fs) = r.bytes.length)
    (recvBuf : Memory) (rand : ℕ → Fin 4 → UInt8) (texts : HandshakeTexts)
    (path protocol : List UInt8) :
    HandsOver ((connected (r.bytes ++ FeedFrame.bytes fs) chunks recvBuf rand).performHandshake
      texts path protocol) (fs.map FeedFrame.frame) := by
  obtain ⟨hresult, hincoming⟩ := performHandshake_stream (r.bytes ++ FeedFrame.bytes fs) chunks
    recvBuf rand texts path protocol
  rw [hfirst, List.drop_left] at hincoming
  rw [hfirst, List.take_left, if_neg (List.ne_nil_of_length_pos r.length_pos), r.accepted]
    at hresult
  refine ⟨hresult, hincoming, readFrames_results ?_ hincoming⟩
  intro frame hframe
  obtain ⟨f, -, rfl⟩ := List.mem_map.mp hframe
  have := f.fits
  omega

/-- What the ingester enqueues, however the stream is cut. -/
theorem startReceiving_eq_updates (rows : List StreamRow) (venueName : List UInt8)
    (idOf : List UInt8 → UInt32) (r : UpgradeResponse) (fs : List FeedFrame)
    (hregistered : ∀ m, .depth m ∈ FeedFrame.allMessages fs →
      (VenueRegistry.ofRows rows).lookup venueName m.symbol.name = .ok (idOf m.symbol.name))
    {chunks : ℕ → ℕ} (hfirst : firstPiece chunks (r.bytes ++ FeedFrame.bytes fs) = r.bytes.length)
    (recvBuf : Memory) (rand : ℕ → Fin 4 → UInt8) (texts : HandshakeTexts)
    (path protocol : List UInt8) {turns : ℕ} (hturns : fs.length ≤ turns)
    (tsc : ℕ → ℕ → UInt64) :
    (startReceiving (binanceParser (.ofRows rows) venueName) turns tsc true texts path protocol
      (connected (r.bytes ++ FeedFrame.bytes fs) chunks recvBuf rand)).2 =
        FeedFrame.updates idOf tsc fs := by
  rw [startReceiving_frames _ tsc texts path protocol ?_ ?_
    (handsOver_of_firstPiece r fs hfirst recvBuf rand texts path protocol)]
  · exact parsePayloads_frames fs hregistered tsc
  · intro frame hframe
    obtain ⟨f, -, rfl⟩ := List.mem_map.mp hframe
    have := f.fits
    omega
  · rw [List.length_map]
    exact hturns

/-! ### Quotes -/

/-- The prices and quantities of a symbol in the depth messages, in order. -/
def quotes (group : DepthMessage → LevelGroup) (symbol : List UInt8) : List Message → List (ℤ × ℤ)
  | [] => []
  | .depth m :: ms =>
    (if m.symbol.name = symbol then
      (group m).levels.map (fun l => (l.price.toInt, l.quantity.toInt)) else []) ++
    quotes group symbol ms
  | .bestBidAsk _ :: ms => quotes group symbol ms
  | .trades _ :: ms => quotes group symbol ms

theorem quotes_append (group : DepthMessage → LevelGroup) (symbol : List UInt8)
    (ms ms' : List Message) :
    quotes group symbol (ms ++ ms') = quotes group symbol ms ++ quotes group symbol ms' := by
  induction ms with
  | nil => rfl
  | cons m ms ih =>
    cases m with
    | depth m => rw [List.cons_append, quotes, quotes, ih, List.append_assoc]
    | bestBidAsk m => exact ih
    | trades m => exact ih

theorem askUpdates_append (us us' : List MarketUpdate) :
    askUpdates (us ++ us') = askUpdates us ++ askUpdates us' := by
  rw [askUpdates, List.filter_append, List.map_append]
  rfl

theorem bidUpdates_append (us us' : List MarketUpdate) :
    bidUpdates (us ++ us') = bidUpdates us ++ bidUpdates us' := by
  rw [bidUpdates, List.filter_append, List.map_append]
  rfl

theorem filter_updates (m : DepthMessage) (id id' : UInt32) (tsc : UInt64) :
    (m.updates id tsc).filter (fun u => u.instrumentId = id') =
      if id = id' then m.updates id tsc else [] := by
  have hid : ∀ u ∈ m.updates id tsc, u.instrumentId = id := by
    intro u hu
    rcases List.mem_append.mp hu with hu | hu
    · obtain ⟨l, -, rfl⟩ := List.mem_map.mp hu
      rfl
    · obtain ⟨l, -, rfl⟩ := List.mem_map.mp hu
      rfl
  split
  · rename_i heq
    exact List.filter_eq_self.mpr (fun u hu => by simp [hid u hu, heq])
  · rename_i hne
    exact List.filter_eq_nil_iff.mpr (fun u hu => by simp [hid u hu, hne])

theorem askUpdates_updates (m : DepthMessage) (id : UInt32) (tsc : UInt64) :
    askUpdates (m.updates id tsc) =
      m.asks.levels.map (fun l => (l.price.toInt, l.quantity.toInt)) := by
  unfold DepthMessage.updates LevelGroup.updates
  rw [askUpdates_append]
  unfold askUpdates
  rw [List.filter_eq_nil_iff.mpr, List.filter_eq_self.mpr, List.map_map]
  · rfl
  · intro u hu
    obtain ⟨l, -, rfl⟩ := List.mem_map.mp hu
    rfl
  · intro u hu
    obtain ⟨l, -, rfl⟩ := List.mem_map.mp hu
    simp [DepthMessage.update]

theorem bidUpdates_updates (m : DepthMessage) (id : UInt32) (tsc : UInt64) :
    bidUpdates (m.updates id tsc) =
      m.bids.levels.map (fun l => (l.price.toInt, l.quantity.toInt)) := by
  unfold DepthMessage.updates LevelGroup.updates
  rw [bidUpdates_append]
  unfold bidUpdates
  rw [List.filter_eq_self.mpr, List.filter_eq_nil_iff.mpr, List.map_map, List.map_nil,
    List.append_nil]
  · rfl
  · intro u hu
    obtain ⟨l, -, rfl⟩ := List.mem_map.mp hu
    simp [DepthMessage.update]
  · intro u hu
    obtain ⟨l, -, rfl⟩ := List.mem_map.mp hu
    rfl

/-- The updates of one id are the quotes of its symbol. -/
theorem sides_filter_updates {idOf : List UInt8 → UInt32} {symbol : List UInt8}
    (ms : List Message) (hinj : ∀ m, .depth m ∈ ms → idOf m.symbol.name = idOf symbol →
      m.symbol.name = symbol) (tsc : ℕ → UInt64) :
    askUpdates ((SbeWire.updates idOf tsc ms).filter (fun u => u.instrumentId = idOf symbol)) =
        quotes DepthMessage.asks symbol ms ∧
      bidUpdates ((SbeWire.updates idOf tsc ms).filter (fun u => u.instrumentId = idOf symbol)) =
        quotes DepthMessage.bids symbol ms := by
  induction ms generalizing tsc with
  | nil => exact ⟨rfl, rfl⟩
  | cons m ms ih =>
    have hrest := fun m' hm' => hinj m' (List.mem_cons_of_mem m hm')
    cases m with
    | depth m =>
      obtain ⟨hasks, hbids⟩ := ih hrest (fun n => tsc (n + 1))
      rw [SbeWire.updates, List.filter_append, askUpdates_append, bidUpdates_append, hasks, hbids,
        quotes, quotes, filter_updates]
      by_cases hname : m.symbol.name = symbol
      · rw [if_pos (congrArg idOf hname), if_pos hname, if_pos hname, askUpdates_updates,
          bidUpdates_updates]
        exact ⟨rfl, rfl⟩
      · rw [if_neg (fun heq => hname (hinj m List.mem_cons_self heq)), if_neg hname, if_neg hname]
        exact ⟨rfl, rfl⟩
    | bestBidAsk m => exact ih hrest tsc
    | trades m => exact ih hrest tsc

theorem sides_filter_frames (idOf : List UInt8 → UInt32) {symbol : List UInt8}
    (fs : List FeedFrame) (hinj : ∀ m, .depth m ∈ FeedFrame.allMessages fs →
      idOf m.symbol.name = idOf symbol → m.symbol.name = symbol) (tsc : ℕ → ℕ → UInt64) :
    askUpdates ((FeedFrame.updates idOf tsc fs).filter (fun u => u.instrumentId = idOf symbol)) =
        quotes DepthMessage.asks symbol (FeedFrame.allMessages fs) ∧
      bidUpdates ((FeedFrame.updates idOf tsc fs).filter (fun u => u.instrumentId = idOf symbol)) =
        quotes DepthMessage.bids symbol (FeedFrame.allMessages fs) := by
  induction fs generalizing tsc with
  | nil => exact ⟨rfl, rfl⟩
  | cons f fs ih =>
    have hf := fun m hm => hinj m (List.mem_append_left _ hm)
    have hfs := fun m hm => hinj m (List.mem_append_right _ hm)
    have hall : FeedFrame.allMessages (f :: fs) = f.messages ++ FeedFrame.allMessages fs := rfl
    rw [hall, quotes_append, quotes_append, FeedFrame.updates]
    by_cases hbinary : isBinary f.frame = true
    · obtain ⟨hasks, hbids⟩ := sides_filter_updates f.messages hf (tsc 0)
      obtain ⟨hasks', hbids'⟩ := ih hfs (fun n => tsc (n + 1))
      rw [if_pos hbinary, List.filter_append, askUpdates_append, bidUpdates_append, hasks, hbids,
        hasks', hbids']
      exact ⟨rfl, rfl⟩
    · rw [if_neg hbinary, f.other (by simpa using hbinary)]
      exact ih hfs tsc

/-! ### From the connection to the books -/

section

open OrderBookManager Transitions VenueRegistry

variable {M : ℕ} {rows : List StreamRow}

/-- The manager as `main` sets it up for the rows. -/
def managerOf (rows : List StreamRow) (strategies : StrategyManager M) : OrderBookManager M :=
  (registered (rows.map (idOf rows))).setStrategyManager strategies

theorem mem_of_idToIndex {ids : List UInt32} {id : UInt32} {i : UInt16}
    (hindex : (registered ids : OrderBookManager M).idToIndex id = some i) : id ∈ ids := by
  induction ids using List.reverseRecOn with
  | nil => cases hindex
  | append_singleton ids last ih =>
    by_cases hlast : id = last
    · rw [hlast]
      exact List.mem_append_right _ (List.mem_singleton.mpr rfl)
    · rw [registered_concat] at hindex
      simp only [registerInstrument, Function.update_of_ne hlast] at hindex
      exact List.mem_append_left _ (ih hindex)

theorem wired_managerOf (hsep : Separable rows) {strategies : StrategyManager M}
    (hbound : BoundTo strategies (managerOf rows strategies).idToIndex) :
    (managerOf rows strategies).Wired where
  distinct id id' i hid hid' := by
    obtain ⟨row, hrow, rfl⟩ := List.mem_map.mp (mem_of_idToIndex hid)
    obtain ⟨row', hrow', rfl⟩ := List.mem_map.mp (mem_of_idToIndex hid')
    have hindex := (idToIndex_idOf hsep.idOf_inj hrow).symm.trans hid
    have hindex' := (idToIndex_idOf hsep.idOf_inj hrow').symm.trans hid'
    have hsame := (ofNat_inj_iff _ _).mp (Option.some.inj (hindex.trans hindex'.symm))
    by_contra hne
    exact hsep.books row hrow row' hrow' (fun heq => hne (congrArg _ heq)) hsame
  strategies m hm := by
    cases hm
    exact hbound

theorem bookFor_managerOf (strategies : StrategyManager M) {row : StreamRow} (hrow : row ∈ rows) :
    (managerOf rows strategies).bookFor (idOf rows row) = some {} := by
  obtain ⟨id, i, hlookup, hindex, hlt⟩ := found_row (M := M) hrow
  obtain rfl : id = idOf rows row := by
    rw [lookup_row hrow] at hlookup
    exact (Except.ok.inj hlookup).symm
  change (registered (rows.map (idOf rows)) : OrderBookManager M).bookFor _ = _
  rw [orderBooks_registered, List.length_replicate] at hlt
  rw [bookFor, hindex, Option.bind_some, orderBooks_registered, List.getElem?_replicate,
    if_pos hlt]

variable {N : ℕ} [NeZero N] [NeZero M]

/-- In a drained run over one queue the book of an instrument is that of its own arrivals. -/
theorem bookFor_drained (hsep : Separable rows) {strategies : StrategyManager M}
    (hbound : BoundTo strategies (managerOf rows strategies).idToIndex)
    (default : MarketUpdate) (arrivals : List MarketUpdate) (schedule : List (Action 1))
    (hroom : StepsMeet MarketFeed.step MarketFeed.WritesBelowCapacity (.start default
      (fun _ => arrivals) (managerOf rows strategies) : MarketFeed (fun _ : Fin 1 => N) M) schedule)
    (hdrained : (schedule.foldl MarketFeed.step (.start default (fun _ => arrivals)
      (managerOf rows strategies) : MarketFeed (fun _ : Fin 1 => N) M)).Drained)
    {row : StreamRow} (hrow : row ∈ rows) :
    (schedule.foldl MarketFeed.step (.start default (fun _ => arrivals)
      (managerOf rows strategies) : MarketFeed (fun _ : Fin 1 => N) M)).manager.bookFor
        (idOf rows row) =
      some (addUpdates {} (arrivals.filter (fun u => u.instrumentId = idOf rows row))) := by
  have hinv : MarketFeed.Inv (fun _ => arrivals) (managerOf rows strategies)
      (schedule.foldl MarketFeed.step (.start default (fun _ => arrivals)
        (managerOf rows strategies) : MarketFeed (fun _ : Fin 1 => N) M)) :=
    foldl_invariant (fun _ _ hstep h => h.step hstep) (.start default _ _) hroom
      (List.prefix_refl _)
  have hpassed := (hinv.delivers 0).passed_eq (hdrained 0).1 (hdrained 0).2
  have hthrough : MarketFeed.ArrivesThrough (fun _ : Fin 1 => arrivals) (idOf rows row) 0 :=
    fun j hj => absurd (Subsingleton.elim j 0) hj
  have hview := SameView.pass_all (.refl (idOf rows row) (managerOf rows strategies))
    (wired_managerOf hsep hbound)
    (schedule.foldl MarketFeed.step (.start default (fun _ => arrivals)
      (managerOf rows strategies) : MarketFeed (fun _ : Fin 1 => N) M)).history
  rw [hinv.history _ 0 hthrough, hpassed, ← hinv.manager] at hview
  rw [hview.book, bookFor_pass_all, bookFor_managerOf strategies hrow]
  · rfl
  · intro u hu
    simpa using (List.mem_filter.mp hu).2

/-- Whatever the pieces in which the stream arrives and the order in which the threads take their
steps, a drained run in which no slot of the ring is overwritten leaves in the book of every
configured symbol the levels that its messages give, in order, with the best prices in front. -/
theorem wire_to_books (hsep : Separable rows) {strategies : StrategyManager M}
    (hbound : BoundTo strategies (managerOf rows strategies).idToIndex)
    (venueName : List UInt8) (r : UpgradeResponse) (fs : List FeedFrame)
    (hknown : ∀ m, .depth m ∈ FeedFrame.allMessages fs → ⟨venueName, m.symbol.name⟩ ∈ rows)
    {chunks : ℕ → ℕ} (hfirst : firstPiece chunks (r.bytes ++ FeedFrame.bytes fs) = r.bytes.length)
    (recvBuf : Memory) (rand : ℕ → Fin 4 → UInt8) (texts : HandshakeTexts)
    (path protocol : List UInt8) {turns : ℕ} (hturns : fs.length ≤ turns)
    (tsc : ℕ → ℕ → UInt64) (default : MarketUpdate) (schedule : List (Action 1)) :
    let arrivals := (startReceiving (binanceParser (.ofRows rows) venueName) turns tsc true texts
      path protocol (connected (r.bytes ++ FeedFrame.bytes fs) chunks recvBuf rand)).2
    let f₀ : MarketFeed (fun _ : Fin 1 => N) M :=
      .start default (fun _ => arrivals) (managerOf rows strategies)
    StepsMeet MarketFeed.step MarketFeed.WritesBelowCapacity f₀ schedule →
      (schedule.foldl MarketFeed.step f₀).Drained →
      ∀ symbol ka kb, ⟨venueName, symbol⟩ ∈ rows →
        (∀ q ∈ quotes DepthMessage.asks symbol (FeedFrame.allMessages fs), InBlock ka q.1) →
        (∀ q ∈ quotes DepthMessage.bids symbol (FeedFrame.allMessages fs), InBlock kb q.1) →
        ∃ b, (schedule.foldl MarketFeed.step f₀).manager.bookFor (idOf rows ⟨venueName, symbol⟩) =
            some b ∧
          SideMatches IsLeast b.asks b.numOfAsks b.getBestAskRaw b.getBestAskQtyRaw
            (putAll maxShiftStep 0
              (quotes DepthMessage.asks symbol (FeedFrame.allMessages fs))) ∧
          SideMatches IsGreatest b.bids b.numOfBids b.getBestBidRaw b.getBestBidQtyRaw
            (putAll maxShiftStep 0
              (quotes DepthMessage.bids symbol (FeedFrame.allMessages fs))) := by
  intro arrivals f₀ hroom hdrained symbol ka kb hrow hasks hbids
  have harrivals : arrivals =
      FeedFrame.updates (fun symbol => idOf rows ⟨venueName, symbol⟩) tsc fs :=
    startReceiving_eq_updates rows venueName _ r fs (fun m hm => lookup_row (hknown m hm)) hfirst
      recvBuf rand texts path protocol hturns tsc
  have hinj : ∀ m, .depth m ∈ FeedFrame.allMessages fs →
      idOf rows ⟨venueName, m.symbol.name⟩ = idOf rows ⟨venueName, symbol⟩ →
      m.symbol.name = symbol := by
    intro m hm hid
    exact congrArg StreamRow.symbol (hsep.idOf_inj _ (hknown m hm) _ hrow hid)
  obtain ⟨hask, hbid⟩ :=
    sides_filter_frames (fun symbol => idOf rows ⟨venueName, symbol⟩) fs hinj tsc
  rw [← harrivals] at hask hbid
  have hbook :=
    bookFor_drained hsep hbound default arrivals schedule hroom hdrained hrow
  refine ⟨_, hbook, ?_⟩
  rw [← hask, ← hbid]
  have hrefines := addUpdates_refines
    (arrivals.filter (fun u => u.instrumentId = idOf rows ⟨venueName, symbol⟩))
    (fresh_refines ka kb) ?_ ?_
  · exact ⟨hrefines.asks_match, hrefines.bids_match⟩
  · intro u hu hside
    refine hasks (u.price.toInt, u.quantity.toInt) ?_
    rw [← hask]
    exact List.mem_map_of_mem (List.mem_filter.mpr ⟨hu, decide_eq_true hside⟩)
  · intro u hu hside
    refine hbids (u.price.toInt, u.quantity.toInt) ?_
    rw [← hbid]
    exact List.mem_map_of_mem (List.mem_filter.mpr ⟨hu, decide_eq_true hside⟩)

/-- One binary frame with the sample. -/
def sampleFrame : FeedFrame where
  frame := wholeSample.first
  messages := [.depth sampleDepth]
  binary _ := (List.append_nil _).symm
  other h := absurd h (by decide)
  fits := by decide

def sampleRows : List StreamRow := [⟨[66], [66, 84, 67]⟩]

/-- The ingester and the manager thread take turns. -/
def sampleSchedule : List (Action 1) :=
  [.produce 0, .produce 0, .consume, .produce 0, .consume, .produce 0, .consume, .produce 0,
    .consume, .produce 0, .consume, .consume, .consume, .consume, .consume]

theorem wire_to_books_sampleFrame :
    let arrivals := (startReceiving (binanceParser (.ofRows sampleRows) [66]) 1 (fun _ _ => 0) true
      ⟨[], [], []⟩ [47] [] (connected (switchingProtocols.bytes ++ FeedFrame.bytes [sampleFrame])
        (fun n => if n = 0 then 56 else 1) (fun _ => 0) (fun _ _ => 0))).2
    let f := sampleSchedule.foldl MarketFeed.step (.start (.new 0 .invalid 0 0 0 0 0)
      (fun _ => arrivals) (managerOf sampleRows MarketFeed.newStrategies) :
        MarketFeed (fun _ : Fin 1 => 2) 4)
    ∃ b, f.manager.bookFor 0 = some b ∧
      SideMatches IsLeast b.asks b.numOfAsks b.getBestAskRaw b.getBestAskQtyRaw
        (putAll maxShiftStep 0 [(101, 3)]) ∧
      SideMatches IsGreatest b.bids b.numOfBids b.getBestBidRaw b.getBestBidQtyRaw
        (putAll maxShiftStep 0 [(100, 7)]) := by
  have hempty : ∀ id p, p ∉ MarketFeed.newStrategies.perInstrument id :=
    fun _ _ => List.not_mem_nil
  have hknown : ∀ m, .depth m ∈ FeedFrame.allMessages [sampleFrame] →
      (⟨[66], m.symbol.name⟩ : StreamRow) ∈ sampleRows := by
    intro m hm
    obtain rfl : m = sampleDepth := by simpa [FeedFrame.allMessages, sampleFrame] using hm
    decide
  have hfirst : firstPiece (fun n => if n = 0 then 56 else 1)
      (switchingProtocols.bytes ++ FeedFrame.bytes [sampleFrame]) =
        switchingProtocols.bytes.length := by
    decide +kernel
  have hturns : [sampleFrame].length ≤ 1 := le_rfl
  have harrivals := startReceiving_eq_updates sampleRows [66]
    (fun symbol => idOf sampleRows ⟨[66], symbol⟩) switchingProtocols [sampleFrame]
    (fun m hm => lookup_row (hknown m hm)) hfirst (fun _ => 0) (fun _ _ => 0) ⟨[], [], []⟩ [47] []
    hturns (fun _ _ => 0)
  have hseparator : NoSeparator sampleRows := by
    intro row hrow
    rw [List.mem_singleton.mp hrow]
    decide
  refine wire_to_books (M := 4) (N := 2) (.of_length hseparator (by decide))
    ⟨fun id _ p h => absurd h (hempty id p), fun id _ p _ h => absurd h (hempty id p), rfl⟩ [66]
    switchingProtocols [sampleFrame] hknown hfirst (fun _ => 0) (fun _ _ => 0) ⟨[], [], []⟩ [47] []
    hturns (fun _ _ => 0) (.new 0 .invalid 0 0 0 0 0) sampleSchedule ?_ ?_ [66, 84, 67] 0 0
    (by decide) ?_ ?_
  · rw [harrivals]
    decide +kernel
  · rw [harrivals]
    decide +kernel
  · decide
  · decide

end

end HftSystem
