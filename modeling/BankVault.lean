import BankVault.Clocked.Run
import BankVault.Clocked.Flow
import BankVault.Clocked.Progress
import BankVault.Clocked.Phase
import BankVault.Clocked.Window
import BankVault.Clocked.Gated
import BankVault.Clocked.Divider
import BankVault.Clocked.Settle
import BankVault.Clocked.Ring
import BankVault.Seqs.Greedy
import BankVault.Wire.Framing
import BankVault.Wire.Serial
import BankVault.Paint.Patch
import BankVault.Rtl.Knock
import BankVault.Rtl.Games
import BankVault.Rtl.Keypad
import BankVault.Rtl.Matrix
import BankVault.Rtl.Vault
import BankVault.Rtl.Keyed
import BankVault.Rtl.StateLogic
import BankVault.Rtl.Nets
import BankVault.Rtl.Display
import BankVault.Rtl.Tone
import BankVault.Rtl.Timer
import BankVault.Rtl.Adc
import BankVault.Rtl.AdcEvents
import BankVault.Rtl.Board
import BankVault.Rtl.Spi
import BankVault.Proof.Debounce
import BankVault.Proof.KnockLength
import BankVault.Proof.JoyCode
import BankVault.Proof.Scan
import BankVault.Proof.PowerKey
import BankVault.Proof.Stages
import BankVault.Proof.Soundness
import BankVault.Proof.Knock
import BankVault.Proof.DontCare
import BankVault.Proof.JoyKeys
import BankVault.Proof.Digits
import BankVault.Proof.GameOne
import BankVault.Proof.Open
import BankVault.Proof.Play
import BankVault.Proof.AdcPhase
import BankVault.Proof.AdcFrame
import BankVault.Proof.AdcReset
import BankVault.Proof.AdcPulses
import BankVault.Proof.AdcStore
import BankVault.Proof.AdcChannel
import BankVault.Proof.Nets
import BankVault.Proof.Codes
import BankVault.Proof.Display
import BankVault.Proof.Hint
import BankVault.Proof.ToneRange
import BankVault.Proof.TonePeriod
import BankVault.Firmware.Image
import BankVault.Firmware.GraphicTop
import BankVault.Firmware.Panel
import BankVault.Firmware.Ticks
import BankVault.Proof.Frames
import BankVault.Proof.Picture
import BankVault.Proof.Bytes
import BankVault.Proof.Words
import BankVault.Proof.Flags
import BankVault.Proof.SpiByte
import BankVault.Proof.SpiLine
import BankVault.Firmware.SpiDriver
import BankVault.Proof.SpiCycle
import BankVault.Proof.SpiDriver
import BankVault.Proof.SpiCommand
import BankVault.Proof.SpiSelect
import BankVault.Firmware.Processor
import BankVault.Proof.PanelPins
import BankVault.Firmware.Wired
import BankVault.Proof.Provenance
import BankVault.Proof.Announce
import BankVault.Proof.Ticks
import BankVault.Proof.FrameDelay
import BankVault.Firmware.Alarms
import BankVault.Proof.Alarms
import BankVault.Proof.AlarmPeriod
import BankVault.Proof.AdcTorn
