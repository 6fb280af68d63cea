import SqueezeliteMuse.Lib.Runs
import SqueezeliteMuse.Lib.Ring
import SqueezeliteMuse.Lib.Biphase
import SqueezeliteMuse.Lib.LengthPrefix
import SqueezeliteMuse.Lib.Icy
import SqueezeliteMuse.Lib.Serial
import SqueezeliteMuse.Lib.Octets
import SqueezeliteMuse.Lib.Keyed
import SqueezeliteMuse.Lib.Significand
import SqueezeliteMuse.Buffer
import SqueezeliteMuse.Spdif
import SqueezeliteMuse.Socket
import SqueezeliteMuse.Framing
import SqueezeliteMuse.Stream
import SqueezeliteMuse.Deinterleave
import SqueezeliteMuse.MetaDelivery
import SqueezeliteMuse.Rtp
import SqueezeliteMuse.RtpWindow
import SqueezeliteMuse.RtpGaps
import SqueezeliteMuse.RtpPcm
import SqueezeliteMuse.Output
import SqueezeliteMuse.Telnet
import SqueezeliteMuse.TelnetFraming
import SqueezeliteMuse.TrackStart
import SqueezeliteMuse.OutputAccount
import SqueezeliteMuse.OutputProgress
import SqueezeliteMuse.Player
import SqueezeliteMuse.Display
import SqueezeliteMuse.Packets
import SqueezeliteMuse.Isolation
import SqueezeliteMuse.Leftovers
import SqueezeliteMuse.Config
import SqueezeliteMuse.ConfigStore
import SqueezeliteMuse.ConfigCommit
import SqueezeliteMuse.Ota
import SqueezeliteMuse.OtaImage
import SqueezeliteMuse.RtspSession
import SqueezeliteMuse.RaopMemory
import SqueezeliteMuse.Arbitration
import SqueezeliteMuse.Mp4
import SqueezeliteMuse.Codecs
import SqueezeliteMuse.StreamEnd
import SqueezeliteMuse.HeaderChunks
import SqueezeliteMuse.Lib.Reports
import SqueezeliteMuse.Update
import SqueezeliteMuse.UpdateSteps
import SqueezeliteMuse.StatusReports
import SqueezeliteMuse.StatusProtocol
import SqueezeliteMuse.OtaRequests
import SqueezeliteMuse.BufferUnwrap
import SqueezeliteMuse.RtpTiming
import SqueezeliteMuse.PcmHeader
import SqueezeliteMuse.PcmSamples
import SqueezeliteMuse.PcmTotal
import SqueezeliteMuse.WifiManager
import SqueezeliteMuse.BtSource
import SqueezeliteMuse.Lib.Windowed
import SqueezeliteMuse.Gds
import SqueezeliteMuse.SsdPages
import SqueezeliteMuse.SsdRows
import SqueezeliteMuse.St77xx
import SqueezeliteMuse.DisplayUpdate
import SqueezeliteMuse.Lib.Saturate
import SqueezeliteMuse.Gain
import SqueezeliteMuse.FadeGain
import SqueezeliteMuse.CrossMix
import SqueezeliteMuse.I2s
import SqueezeliteMuse.Lib.Trim
import SqueezeliteMuse.Gapless
import SqueezeliteMuse.Lib.RunLength
import SqueezeliteMuse.StscExpand
import SqueezeliteMuse.Lib.Loop
import SqueezeliteMuse.PcmSafe
import SqueezeliteMuse.MadBuffer
import SqueezeliteMuse.Mp4Samples
import SqueezeliteMuse.Lib.Extent
import SqueezeliteMuse.Mp4Safe
import SqueezeliteMuse.RaopSync
import SqueezeliteMuse.Durations
import SqueezeliteMuse.Lib.Multiples
import SqueezeliteMuse.BufferAdjust
import SqueezeliteMuse.Lib.Trailing
import SqueezeliteMuse.ResponseHeader
import SqueezeliteMuse.Lib.Regroup
import SqueezeliteMuse.Base64
import SqueezeliteMuse.Lib.CString
import SqueezeliteMuse.RtspMessage
import SqueezeliteMuse.DmapParser
import SqueezeliteMuse.RtspBounds
import SqueezeliteMuse.GpioExp
import SqueezeliteMuse.GpioEvents
import SqueezeliteMuse.GpioTidy
import SqueezeliteMuse.GpioRuns
import SqueezeliteMuse.Equalizer
import SqueezeliteMuse.VisuExport
import SqueezeliteMuse.BtPacking
import SqueezeliteMuse.Lib.Selection
import SqueezeliteMuse.SampleRates
import SqueezeliteMuse.MessageText
import SqueezeliteMuse.Buttons
import SqueezeliteMuse.Lib.Evicting
import SqueezeliteMuse.Messaging
import SqueezeliteMuse.VisuLayout
import SqueezeliteMuse.Fragments
import SqueezeliteMuse.Lib.CommandLine
import SqueezeliteMuse.PlayerName
import SqueezeliteMuse.UrlDecode
import SqueezeliteMuse.OtaErase
import SqueezeliteMuse.SinkWrite
import SqueezeliteMuse.Lines
import SqueezeliteMuse.ElapsedTime
import SqueezeliteMuse.Infrared
import SqueezeliteMuse.FlacOutput
import SqueezeliteMuse.OggOutput
import SqueezeliteMuse.BtVolume
import SqueezeliteMuse.PeersList
import SqueezeliteMuse.Led
import SqueezeliteMuse.GpioAssignment
import SqueezeliteMuse.KnobControl
import SqueezeliteMuse.ControlProfiles
import SqueezeliteMuse.Lib.Utf8
import SqueezeliteMuse.Utf8
import SqueezeliteMuse.Lib.Painting
import SqueezeliteMuse.Pixels
import SqueezeliteMuse.ClearWindow
import SqueezeliteMuse.Resample
import SqueezeliteMuse.Jpeg
import SqueezeliteMuse.BitmapCBR
import SqueezeliteMuse.ResampleRate
import SqueezeliteMuse.ScanList
import SqueezeliteMuse.NvsSet
import SqueezeliteMuse.HttpResource
import SqueezeliteMuse.WifiConnect
import SqueezeliteMuse.MetadataFormat
import SqueezeliteMuse.Lib.Words
import SqueezeliteMuse.BtName
import SqueezeliteMuse.Lib.Decimal
import SqueezeliteMuse.HardwareConfig
import SqueezeliteMuse.TrimmedOutput
import SqueezeliteMuse.Lib.Quadrature
import SqueezeliteMuse.RotaryEncoder
import SqueezeliteMuse.Lib.Ranked
import SqueezeliteMuse.CodecTable
import SqueezeliteMuse.Lib.BitReversal
import SqueezeliteMuse.BitRev
