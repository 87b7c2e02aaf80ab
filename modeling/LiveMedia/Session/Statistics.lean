import LiveMedia.Json.Value
import LiveMedia.Session.Run

/-! # JSON forms of counts -/

namespace LiveMedia
set_option autoImplicit false

open Json

def PublishStats.toJson (s : PublishStats) : Value :=
  .object
    [ ("frames_submitted", .nat s.framesSubmitted),
      ("frames_dropped_backpressure", .nat s.droppedBackpressure),
      ("frames_dropped_no_codec", .nat s.droppedNoCodec),
      ("chunks_sent", .nat s.chunksSent),
      ("groups_started", .nat s.groupsStarted),
      ("end_of_group_markers", .nat s.endOfGroupMarkers),
      ("codec_resets", .nat s.codecResets),
      ("send_failures", .nat s.sendFailures),
      ("last_capture_latency_us", .ofOption .int s.lastLatency) ]

def PlayStats.toJson (s : PlayStats) : Value :=
  .object
    [ ("objects_received", .nat s.objectsReceived),
      ("stale_epoch_drops", .nat s.staleEpochDrops),
      ("stream_restarts", .nat s.streamRestarts),
      ("control_objects_dropped", .nat s.controlObjectsDropped),
      ("entries_played", .nat s.entriesPlayed),
      ("overflow_drops", .nat s.overflowDrops),
      ("late_drops", .nat s.lateDrops),
      ("keyframe_wait_discards", .nat s.keyframeWaitDiscards),
      ("malformed_payloads", .nat s.malformedPayloads),
      ("chunks_decoded", .nat s.chunksDecoded),
      ("frames_rendered", .nat s.framesRendered),
      ("render_drops", .nat s.renderDrops),
      ("codec_resets", .nat s.codecResets) ]

def SessionStats.toJson (s : SessionStats) : Value :=
  .object
    [ ("video_encode", s.encode.video.toJson),
      ("audio_encode", s.encode.audio.toJson),
      ("video_decode", s.decode.video.toJson),
      ("audio_decode", s.decode.audio.toJson),
      ("routed_objects", .nat s.routed),
      ("unknown_track_objects", .nat s.unknownTrack) ]

end LiveMedia
